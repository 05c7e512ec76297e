import BitcoinIndexer.Core.Stages
import BitcoinIndexer.Modes.BatchCounter

/-!
# Nothing waits at the head

In bulk mode blocks wait in the batch for others.  In normal mode, and where the chain ends
with the head of the node's chain, every call that returns leaves the batch empty.  The blocks
of a reorg are not in it: they wait in `pending_reorg` until they are more than those they
replace.
-/

namespace BitcoinIndexer.AtHead

open BitcoinIndexer.Types
open BitcoinIndexer.Tables
open BitcoinIndexer.Worker
open BitcoinIndexer.Store
open BitcoinIndexer.Pipeline (Running running_step)
open BitcoinIndexer.Schedules
open BitcoinIndexer.CurrentHeight
open BitcoinIndexer.Keeping
open BitcoinIndexer.PersistedMode
open BitcoinIndexer.BatchCounter
open BitcoinIndexer.OrderedMap
open BitcoinIndexer.Interleaving

def HandsOver (store : IndexerStore) : Prop :=
  store.mode = .normal ∨ store.chainBlockCount = store.nodeChainHeadHeight + 1 → store.batch = []

/-- Between two calls of a process that has found the node's chain at that height. -/
structure Ready (head : BlockHeight) (store : IndexerStore) (w : World) : Prop where
  node : store.nodeChainHeadHeight = head
  paused : Paused store w
  handsOver : HandsOver store

variable {α γ : Type} {store : IndexerStore} {block : BlockData} {w : World} {head : BlockHeight}
variable {D : Discipline Act IndexerStore Halt World WorkerEvent Call}

theorem stable_ready (head : BlockHeight) (store : IndexerStore) :
    D.Stable system (Ready head store) :=
  fun event w hevent h => ⟨h.node, stable_paused store event w hevent h.paused, h.handsOver⟩

theorem allowsAny : AllowsQuiet Any := fun _ _ _ => trivial

/-! ## The height of the node's chain -/

def SameNode (before after : IndexerStore) : Prop :=
  after.nodeChainHeadHeight = before.nodeChainHeadHeight

instance : Std.Refl SameNode := ⟨fun _ => rfl⟩

instance : IsTrans IndexerStore SameNode := ⟨fun _ _ _ h h' => h'.trans h⟩

theorem sameNode_of_keeps {prog : StoreM α} (h : Keeps Any prog) : Moves Any SameNode prog :=
  fun store => (h store).mono fun _ _ hsame => hsame.nodeChainHeadHeight

theorem sameNode_setModeUncodintionally (mode : Mode) :
    Moves Any SameNode (setModeUncodintionally mode) := by
  intro store
  apply (ensures_setModeUncodintionally allowsAny.simple mode trivial (fun _ => trivial) trivial
    trivial).mono
  exact fun _ after hafter => hafter.2.2

theorem sameNode_setMode (mode : Mode) : Moves Any SameNode (setMode mode) := by
  intro store
  apply (ensures_setMode allowsAny.simple mode trivial (fun _ => trivial) trivial trivial).mono
  exact fun _ after hafter => hafter.2.2

theorem sameNode_selfTest : Moves Any SameNode selfTest := by
  apply Moves.read
  intro store
  exact (moves_assertThat _ _).bind fun _ =>
    (sameNode_setModeUncodintionally .freshBulk).bind fun _ =>
      (sameNode_setModeUncodintionally .bulk).bind fun _ =>
        (sameNode_setModeUncodintionally .normal).bind fun _ =>
          (sameNode_setModeUncodintionally .bulk).bind fun _ =>
            sameNode_setModeUncodintionally .freshBulk

theorem sameNode_insertExtending (block : BlockData) :
    Moves Any SameNode (insertExtending block) := by
  have hpush : Moves Any SameNode (modifyStore fun store => store.push block) :=
    Moves.modify fun _ => rfl
  exact hpush.bind fun _ => Moves.read fun _ =>
    (moves_whenever _ (sameNode_of_keeps (keeps_flushBatch allowsAny.simple))).bind fun _ =>
      moves_whenever _ (sameNode_setMode .normal)

theorem sameNode_insert (block : BlockData) : Moves Any SameNode (Store.insert block) := by
  intro store
  simp only [Store.insert, Prog.bind_eq, Prog.read_bind, ensures_loc]
  split_ifs
  · apply ensures_insertWhenInReorg allowsAny.simple _ fun _ hafter => hafter.nodeChainHeadHeight
    intro ready hready _
    apply (ensures_finishReorg allowsAny.plain fun _ => trivial).mono
    exact fun _ _ hafter => hafter.2.2.trans hready.nodeChainHeadHeight
  · apply ensures_insertWhenAtTip allowsAny.simple
    · intro ready hready
      apply (ensures_insertBelowTip allowsAny.simple (fun _ => trivial) trivial block).mono
      exact fun _ _ hafter => (hready.trans hafter).nodeChainHeadHeight
    · intro ready hready _
      apply (sameNode_insertExtending block ready).mono
      exact fun _ _ hafter => Eq.trans hafter hready.nodeChainHeadHeight

/-! ## With the workers running -/

theorem stable_running : D.Stable system Running := fun event _ _ h => running_step h event

/-- What is done to hand a batch over. -/
def Handing : (γ : Type) → Act γ → Prop
  | _, .insertInFlight _ => True
  | _, .send _ => True
  | _, _ => False

theorem running_handing {access : Act γ} (hhanding : Handing γ access) (fails : Bool)
    (h : Running w) : Running ((system.exec access fails w).after w) := by
  cases access with
  | insertInFlight ids => exact h
  | send batch =>
      simp only [system, systemOf_exec, exec, sendTo]
      cases hworkers : w.workers with
      | none => exact h
      | some p =>
          have hopen : p.txOpen = true := by simpa [Running, hworkers] using h
          cases hutxo : p.utxo with
          | recv =>
              simp only [hutxo]
              exact ⟨_, rfl, hopen⟩
          | _ =>
              simp only [hutxo]
              exact h
  | _ => exact absurd hhanding id

/-- Flushing the batch leaves the workers running. -/
theorem running_flushBatch (h : Running w) :
    Afterwards D (fun _ after w => (Same store after ∧ after.batch = []) ∧ Running w)
      flushBatch store w := by
  have hflush : Ensures Handing (fun _ after => Same store after ∧ after.batch = [])
      flushBatch store := by
    simp only [flushBatch, Prog.bind_eq, Prog.read_bind, ensures_loc]
    split_ifs with hempty
    · exact ⟨.refl store, List.isEmpty_iff.1 hempty⟩
    · exact ⟨trivial, fun _ => ⟨trivial, fun _ => ⟨⟨rfl, rfl, rfl⟩, rfl⟩⟩⟩
  exact hflush.safe stable_running (fun _ _ => trivial) (fun _ _ _ _ => trivial)
    (fun _ fails _ hhanding h => running_handing hhanding fails h) h

theorem running_flushWorkers (h : Running w) :
    Afterwards D (fun _ after _ => after.batch = []) flushWorkers store w := by
  simp only [flushWorkers, Prog.bind_eq, Prog.perform_bind]
  apply Safe.act stable_running (fun _ _ => trivial) _ h
  intro ready hready fails _
  have hrunning : ready.workers.any (·.txOpen) = true := (Option.any_eq_true _ _).2 hready
  simp only [system, systemOf_exec, exec, hrunning, Bool.not_true, Bool.false_eq_true, if_false]
  apply Safe.bind _ (running_flushBatch hready)
  rintro _ flushed sent ⟨⟨-, hempty⟩, -⟩
  have hrest : Moves Any Drains (.act .lookInFlight fun empty =>
      if empty then .pure () else flushWorkersUnconditionally) := by
    apply Moves.act trivial
    intro empty
    cases empty with
    | true => exact Moves.value ()
    | false =>
        have hstop : Unmoved Any stopWorkers := unmoved_stopWorkers (fun _ _ _ => trivial) trivial
        exact hstop.of_eq.bind fun _ => unmoved_startWorkers.of_eq
  apply (afterwards_of_ensures (hrest flushed)).mono
  exact fun _ after _ hafter => hafter.batch hempty

/-- The change to normal mode flushes the batch, except where there was nothing to change. -/
theorem running_setMode (h : Running w) (hempty : store.mode = .normal → store.batch = []) :
    Afterwards D (fun _ after _ => after.batch = []) (setMode .normal) store w := by
  simp only [setMode, Prog.bind_eq, Prog.read_bind, safe_loc]
  split_ifs with hmode
  · exact hempty hmode
  · simp only [setModeUncodintionally, Prog.bind_eq, Prog.modify_bind, safe_loc]
    apply Safe.bind _ (running_flushWorkers h)
    intro _ flushed _ hflushed
    have hrest : Unmoved Any ((setSchemaToMode .normal).bind
        fun _ => perform (.execute (updateBulkMode .normal))) :=
      Moves.act trivial fun _ => Moves.perform trivial
    apply (afterwards_of_ensures (hrest flushed)).mono
    rintro _ _ _ rfl
    exact hflushed

/-! ## Inserting -/

theorem handsOver_insertExtending (hheight : block.height = store.chainBlockCount)
    (h : Running w) :
    Afterwards D (fun _ after _ => HandsOver after) (insertExtending block) store w := by
  simp only [insertExtending, Prog.bind_eq, Prog.modify_bind, Prog.read_bind, safe_loc]
  have hflush : Afterwards D (fun _ after w => (Same (store.push block) after ∧
        (after.mode = .normal → after.batch = [])) ∧ Running w)
      (whenever (!(store.push block).mode.isBulk ||
        decide ((store.push block).batchTxsTotal > 100000)) flushBatch) (store.push block) w := by
    cases hcondition : (!(store.push block).mode.isBulk ||
        decide ((store.push block).batchTxsTotal > 100000)) with
    | true =>
        rw [whenever_true]
        apply (running_flushBatch h).mono
        exact fun _ _ _ hafter => ⟨⟨hafter.1.1, fun _ => hafter.1.2⟩, hafter.2⟩
    | false =>
        rw [whenever_false]
        refine ⟨⟨.refl _, fun hnormal => ?_⟩, h⟩
        simp [hnormal, Mode.isBulk] at hcondition
  apply Safe.bind _ hflush
  rintro _ flushed sent ⟨⟨hsame, hempty⟩, hrunning⟩
  by_cases hhead : (store.push block).nodeChainHeadHeight = block.height
  · rw [decide_eq_true hhead, whenever_true]
    apply (running_setMode hrunning hempty).mono
    exact fun _ _ _ hbatch _ => hbatch
  · rw [decide_eq_false hhead, whenever_false]
    rintro (hnormal | hcount)
    · exact hempty hnormal
    · -- the count is one more than the height of this block, which is not the head
      rw [hsame.chainBlockCount, hsame.nodeChainHeadHeight] at hcount
      exact absurd (Nat.succ_injective hcount) fun heq => hhead (heq.symm.trans hheight.symm)

/-- Below the tip the batch is flushed first. -/
theorem ensures_insertBelowTip_batch (block : BlockData) (store : IndexerStore) :
    Ensures Any (fun _ after => after.batch = []) (insertBelowTip block) store := by
  simp only [insertBelowTip, Prog.bind_eq]
  apply Ensures.bind _ (ensures_flushBatch store)
  rintro _ flushed ⟨-, hempty, -⟩
  have hstop : Unmoved Any stopWorkers := unmoved_stopWorkers (fun _ _ _ => trivial) trivial
  apply Ensures.bind _ (hstop flushed)
  rintro _ _ rfl
  apply Ensures.bind _ (unmoved_readDbBlockHashByHeight allowsAny.simple block.height flushed)
  rintro dbHash _ rfl
  cases dbHash with
  | none => trivial
  | some dbHash =>
      simp only
      split_ifs
      · apply (unmoved_startWorkers flushed).mono
        rintro _ _ rfl
        exact hempty
      · simp only [Prog.read_bind, Prog.modify_bind, ensures_loc]
        have hassert : ∀ condition reason, Unmoved Any (assertThat condition reason) :=
          fun condition reason => moves_assertThat condition reason
        apply Ensures.bind _ (hassert _ _ flushed)
        rintro _ _ rfl
        rw [ensures_loc, ensures_loc]
        apply (hassert _ _ _).mono
        rintro _ _ rfl
        exact hempty

/-- Whatever comes before. -/
theorem ensures_then {β : Type} {Q : β → IndexerStore → Prop} {prog : StoreM α} {rest : α → StoreM β}
    (h : ∀ value after, Ensures Any Q (rest value) after) (store : IndexerStore) :
    Ensures Any Q (prog.bind rest) store :=
  Ensures.bind (fun value after _ => h value after) (ensures_true prog store)

/-- The new blocks of a reorg are written by the call that completes it. -/
theorem ensures_finishReorg_batch (store : IndexerStore) :
    Ensures Any (fun _ after => after.batch = []) finishReorg store := by
  simp only [finishReorg, Prog.bind_eq, Prog.read_bind, Prog.modify_bind, ensures_loc]
  refine ensures_then (fun _ _ => ensures_then (fun _ _ => ensures_then (fun _ _ =>
    ensures_then (fun _ _ => ensures_then (fun _ _ => ensures_then (fun _ _ =>
      ensures_then (fun _ looked => ?_) _) _) _) _) _) _) store
  rw [ensures_loc]
  refine ensures_then (fun _ collected => ?_) _
  rw [ensures_loc, ensures_loc]
  refine ensures_then (fun _ counted => ?_) _
  rw [ensures_loc]
  have hrest : ∀ blocks, Unmoved Any ((insertBlocks blocks).bind fun _ => startWorkers) :=
    fun blocks => (unmoved_insertBlocks (fun _ _ _ => trivial) trivial blocks).bind
      fun _ => unmoved_startWorkers
  apply (hrest _ _).mono
  rintro _ _ rfl
  rfl

theorem ensures_insertWhenInReorg_batch (hbatch : store.batch = []) :
    Ensures Any (fun _ after => after.batch = []) (insertWhenInReorg block) store := by
  have hassert : ∀ condition reason, Unmoved Any (assertThat condition reason) :=
    fun condition reason => moves_assertThat condition reason
  simp only [insertWhenInReorg, Prog.bind_eq, Prog.read_bind, Prog.modify_bind, Prog.perform_bind,
    ensures_loc]
  apply Ensures.bind _ (hassert _ _ store)
  rintro _ _ rfl
  refine ⟨trivial, fun stopped => ?_⟩
  apply Ensures.bind _ (hassert _ _ store)
  rintro _ _ rfl
  apply Ensures.bind _ (hassert _ _ store)
  rintro _ _ rfl
  rw [ensures_loc]
  cases decide (block.height = store.chainBlockCount) with
  | true => exact ensures_finishReorg_batch _
  | false => exact hbatch

/-- A block is put on the tip only while the workers run. -/
theorem running_insertWhenAtTip {Q : Unit → IndexerStore → World → Prop}
    (hbelow : ∀ w, Afterwards D Q (insertBelowTip block) store w)
    (hextending : ∀ w, Running w → block.height = store.chainBlockCount →
      Afterwards D Q (insertExtending block) store w) :
    Afterwards D Q (insertWhenAtTip block) store w := by
  have hstable : D.Stable system fun _ => True := fun _ _ _ _ => trivial
  simp only [insertWhenAtTip, Prog.bind_eq, Prog.read_bind, Prog.perform_bind, safe_loc]
  apply afterwards_assertThat
  intro _
  apply Safe.act hstable (fun _ _ => trivial) _ trivial
  intro asked _ fails _
  simp only [system, systemOf_exec, exec, Bool.not_not]
  apply afterwards_assertThat
  intro hrunning
  apply afterwards_assertThat
  intro _
  split_ifs with hheight
  · exact hbelow asked
  · exact hextending asked ((Option.any_eq_true _ _).1 hrunning) (not_not.1 hheight)

theorem handsOver_insert (hpaused : Paused store w) :
    Afterwards D (fun _ after _ => HandsOver after) (Store.insert block) store w := by
  simp only [Store.insert, Prog.bind_eq, Prog.read_bind, safe_loc]
  split_ifs with hreorg
  · apply (afterwards_of_ensures (ensures_insertWhenInReorg_batch (hpaused hreorg).1)).mono
    exact fun _ _ _ hbatch _ => hbatch
  · apply running_insertWhenAtTip
    · intro ready
      apply (afterwards_of_ensures (ensures_insertBelowTip_batch block store)).mono
      exact fun _ _ _ hbatch _ => hbatch
    · exact fun ready hrunning hheight => handsOver_insertExtending hheight hrunning

/-! ## The other calls -/

theorem handsOver_getHashByHeight (h : HandsOver store) (height : BlockHeight) :
    Ensures Any (fun _ after => HandsOver after ∧ SameNode store after)
      (body (.getHashByHeight height)) store := by
  have hread := (drains_getHashByHeight height store).and
    (ensures_getHashByHeight allowsAny.simple (fun _ => trivial) trivial height)
  apply Ensures.bind _ hread
  rintro _ after ⟨hdrains, hsame⟩
  refine ⟨?_, hsame.nodeChainHeadHeight⟩
  rw [HandsOver, hsame.mode, hsame.chainBlockCount, hsame.nodeChainHeadHeight]
  exact fun hthere => hdrains.batch (h hthere)

/-- A new store has an empty batch. -/
theorem ensures_new_batch (nodeChainHeadHeight : BlockHeight) (network : Network) :
    Ensures Any (fun _ after => after.nodeChainHeadHeight = nodeChainHeadHeight ∧ after.batch = [])
      (new nodeChainHeadHeight network) store := by
  simp only [new, Prog.bind_eq, Prog.modify_bind, Prog.read_bind, Prog.perform_bind]
  refine ⟨trivial, fun _ => ?_⟩
  refine ensures_then (fun mode first => ?_) store
  refine ⟨trivial, fun chainBlockCount => ⟨trivial, fun chainCurrentBlockCount => ?_⟩⟩
  refine ensures_then (fun _ second => ?_) first
  rw [ensures_loc]
  have hdrains : Moves Any Drains ((whenever (mode = .freshBulk) selfTest).bind fun _ =>
      .loc (fun store => (store, store)) fun store => .act (.execute (Db.setSchema store.mode))
        fun _ => startWorkers) :=
    (moves_whenever _ drains_selfTest).bind fun _ => Moves.read fun _ => Moves.act trivial
      fun _ => unmoved_startWorkers.of_eq
  have hnode : Moves Any SameNode ((whenever (mode = .freshBulk) selfTest).bind fun _ =>
      .loc (fun store => (store, store)) fun store => .act (.execute (Db.setSchema store.mode))
        fun _ => startWorkers) :=
    (moves_whenever _ sameNode_selfTest).bind fun _ => Moves.read fun _ => Moves.act trivial
      fun _ => unmoved_startWorkers.of_eq
  apply ((hdrains _).and (hnode _)).mono
  exact fun _ after hafter => ⟨hafter.2, hafter.1.batch rfl⟩

/-! ## Runs -/

abbrev Readying (head : BlockHeight) (c : StoreConfig) : Prop :=
  SafeConfig system answered (fun _ => True) (fun _ _ _ => True) (Ready head) c

theorem Readying.returned {c : StoreConfig} (h : Readying head c) (hreturned : c.prog = .pure ()) :
    Ready head c.locals c.shared := by
  rwa [Readying, SafeConfig, hreturned, safe_pure] at h

/-- A new process knows the node's chain at its own height. -/
theorem Readying.start {c : StoreConfig} (h : Readying head c) (nodeChainHeadHeight : BlockHeight)
    (network : Network) (resume : ℕ) : Readying nodeChainHeadHeight
      (system.next (.call (.start nodeChainHeadHeight network resume)) c) := by
  let call := Call.start nodeChainHeadHeight network resume
  have hcall : answered.call call c := trivial
  have hpaused := afterwards_call hcall fun hreturned => (h.returned hreturned).paused
  have hnew : Afterwards answered _ (body call) c.locals (enter call c.shared) :=
    afterwards_of_ensures (ensures_new_batch nodeChainHeadHeight network)
  apply (safe_settle _ _ _).2
  apply (hpaused.and hnew).mono
  rintro _ after later ⟨⟨hafter, -⟩, hnode, hbatch⟩
  exact ⟨hnode, hafter, fun _ => hbatch⟩

theorem Readying.insert {c : StoreConfig} (h : Readying head c) (hreturned : c.prog = .pure ())
    (block : BlockData) : Readying head (system.next (.call (.insert block)) c) := by
  have hold := h.returned hreturned
  have hentered : Paused c.locals (enter (.insert block) c.shared) := hold.paused
  have hnode : Afterwards answered _ (Store.insert block) c.locals (enter (.insert block) c.shared) :=
    afterwards_of_ensures (sameNode_insert block c.locals)
  have hkept := (handsOver_insert hentered).and hnode
  apply (safe_settle _ _ _).2
  apply ((afterwards_insert hentered).and hkept).mono
  rintro _ after later ⟨⟨hafter, -⟩, hover, hsame⟩
  exact ⟨hsame.trans hold.node, hafter, hover⟩

theorem Readying.getHashByHeight {c : StoreConfig} (h : Readying head c)
    (hreturned : c.prog = .pure ()) (height : BlockHeight) :
    Readying head (system.next (.call (.getHashByHeight height)) c) := by
  have hold := h.returned hreturned
  have hpaused := keeping_getHashByHeight (D := answered) hold.paused height
  have hget : Afterwards answered _ (body (.getHashByHeight height)) c.locals c.shared :=
    afterwards_of_ensures (handsOver_getHashByHeight hold.handsOver height)
  apply (safe_settle _ _ _).2
  apply (hpaused.and hget).mono
  rintro _ after later ⟨⟨hafter, -⟩, hover, hsame⟩
  exact ⟨hsame.trans hold.node, hafter, hover⟩

theorem Readying.step {c : StoreConfig} (h : Readying head c) (fails : Bool) :
    Readying head (system.next (.step fails) c) :=
  h.advance fun _ _ _ => trivial

theorem Readying.interfere {c : StoreConfig} (h : Readying head c) (event : WorkerEvent) :
    Readying head (system.next (.other event) c) :=
  Safe.interfere (fun _ => stable_ready head) (fun _ _ _ _ _ _ => trivial) c.locals event c.shared
    trivial h

theorem readying_run {labels : List StoreLabel} {c : StoreConfig}
    (hfollows : answered.follows system labels c) (h : Readying head c) :
    ∃ after, Readying after (system.run labels c) := by
  induction labels generalizing head c with
  | nil => exact ⟨head, h⟩
  | cons label labels ih =>
      obtain ⟨hadmits, hrest⟩ := hfollows
      cases label with
      | step fails => exact ih hrest (h.step fails)
      | other event => exact ih hrest (h.interfere event)
      | call call =>
          cases call with
          | start nodeChainHeadHeight network resume =>
              exact ih hrest (h.start nodeChainHeadHeight network resume)
          | insert block => exact ih hrest (h.insert hadmits block)
          | getHashByHeight height => exact ih hrest (h.getHashByHeight hadmits height)

/-- Between two calls in normal mode, or with the head of the node's chain as the last block,
the batch is empty. -/
theorem nothing_waits_at_head (labels : List StoreLabel)
    (hfollows : answered.follows system labels initial) :
    let c := system.run labels initial
    c.prog = .pure () →
      c.locals.mode = .normal ∨ c.locals.chainBlockCount = c.locals.nodeChainHeadHeight + 1 →
        c.locals.batch = [] := by
  intro c hreturned hhead
  have hinitial : Readying 0 initial := trivial
  obtain ⟨head, hready⟩ := readying_run hfollows hinitial
  exact (hready.returned hreturned).handsOver hhead

/-- A reorg that ends with the head of the node's chain, in bulk mode. -/
@[irreducible]
def reorgAtHead : List StoreLabel :=
  opening 2 .bitcoin ++ ((overtaken 13).take 4).flatMap fun block => calling (.insert block) 40

theorem nothing_waits_after_reorg :
    let c := system.run reorgAtHead initial
    c.locals.mode = .freshBulk ∧ c.locals.chainBlockCount = 3 ∧ c.locals.batch = [] := by
  intro c
  have hfollows : answered.follows system reorgAtHead initial :=
    follows_of_checkRun answered_of_check reorgAtHead initial (by decide +kernel)
  have hreturned : c.prog = .pure () := eq_pure_of_returned (by decide +kernel)
  have hmode : c.locals.mode = .freshBulk := by decide +kernel
  have hcount : c.locals.chainBlockCount = 3 ∧ c.locals.nodeChainHeadHeight = 2 := by decide +kernel
  refine ⟨hmode, hcount.1, nothing_waits_at_head reorgAtHead hfollows hreturned (.inr ?_)⟩
  change c.locals.chainBlockCount = c.locals.nodeChainHeadHeight + 1
  rw [hcount.1, hcount.2]

end BitcoinIndexer.AtHead
