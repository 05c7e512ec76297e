import BitcoinIndexer.Db.IndexerStore
import BitcoinIndexer.Pipeline.Accesses
import BitcoinIndexer.Pipeline.Transition

/-!
# What the calls leave alone

Which of its accesses each part of a call makes, and that the mode, the block count and
the height of the node's chain stay as they are wherever the source does not assign them.
-/

namespace BitcoinIndexer.Keeping

open BitcoinIndexer.Types
open BitcoinIndexer.Tables
open BitcoinIndexer.Formatter
open BitcoinIndexer.UtxoCache
open BitcoinIndexer.Worker
open BitcoinIndexer.Store
open BitcoinIndexer.Pipeline
open BitcoinIndexer.OrderedMap
open BitcoinIndexer.Interleaving

/-- The fields that decide when bulk mode ends. -/
structure Same (before after : IndexerStore) : Prop where
  mode : after.mode = before.mode
  chainBlockCount : after.chainBlockCount = before.chainBlockCount
  nodeChainHeadHeight : after.nodeChainHeadHeight = before.nodeChainHeadHeight

theorem Same.refl (store : IndexerStore) : Same store store := ⟨rfl, rfl, rfl⟩

theorem Same.trans {first second third : IndexerStore} (h : Same first second)
    (h' : Same second third) : Same first third :=
  ⟨h'.mode.trans h.mode, h'.chainBlockCount.trans h.chainBlockCount,
    h'.nodeChainHeadHeight.trans h.nodeChainHeadHeight⟩

/-- All accesses but those that end the workers or start new ones. -/
def Quiet : (γ : Type) → Act γ → Prop
  | _, .dropTx => False
  | _, .spawn _ _ => False
  | _, _ => True

def AllowsQuiet (B : (γ : Type) → Act γ → Prop) : Prop :=
  ∀ (γ : Type) (access : Act γ), Quiet γ access → B γ access

/-- A statement that does not write the state row. -/
def KeepsState (statement : Db → Except SqlError Db) : Prop :=
  ∀ db after, statement db = .ok after → after.bulkMode = db.bulkMode

/-- Of the quiet accesses those that do not write the state row. -/
def Plain : (γ : Type) → Act γ → Prop
  | _, .dropTx => False
  | _, .spawn _ _ => False
  | _, .execute _ => False
  | _, .transExecute statement => KeepsState statement
  | _, _ => True

def AllowsPlain (B : (γ : Type) → Act γ → Prop) : Prop :=
  ∀ (γ : Type) (access : Act γ), Plain γ access → B γ access

/-- Handing over, waiting and looking, and queries outside a transaction. -/
def Simple : (γ : Type) → Act γ → Prop
  | _, .insertInFlight _ => True
  | _, .lookInFlight => True
  | _, .assertInFlightEmpty => True
  | _, .pipelineIsNone => True
  | _, .send _ => True
  | _, .join _ => True
  | _, .query _ => True
  | _, _ => False

def AllowsSimple (B : (γ : Type) → Act γ → Prop) : Prop :=
  ∀ (γ : Type) (access : Act γ), Simple γ access → B γ access

/-- The statements of the transaction of a reorg. -/
inductive ReorgStatement : (Db → Except SqlError Db) → Prop where
  | revert (height : BlockHeight) : ReorgStatement fun db => .ok (db.insertRevertEvents height)
  | mark (height : BlockHeight) : ReorgStatement fun db => .ok (db.markExtinct height)
  | unmark (hashId : HashId) : ReorgStatement fun db => .ok (db.unmarkExtinct hashId)
  | clear (height : BlockHeight) : ReorgStatement fun db => .ok (db.clearCurrentHeight height)
  | event (hashId : HashId) : ReorgStatement (insertEvent hashId)
  | query (queries : Queries) (statement : Db → Except SqlError Db)
      (hmem : statement ∈ queries.toList) : ReorgStatement statement

def Reorganizing : (γ : Type) → Act γ → Prop
  | _, .transQuery _ => True
  | _, .transExecute statement => ReorgStatement statement
  | _, _ => False

def AllowsReorg (B : (γ : Type) → Act γ → Prop) : Prop :=
  ∀ (γ : Type) (access : Act γ), Reorganizing γ access → B γ access

theorem AllowsQuiet.plain {B : (γ : Type) → Act γ → Prop} (h : AllowsQuiet B) : AllowsPlain B := by
  intro γ access hplain
  apply h
  cases access with
  | dropTx | spawn => exact hplain
  | _ => trivial

/-! ## What the statements of a batch or a reorg do -/

/-- A relation between states that neither events nor rows of the other tables break. -/
structure Respected (R : Db → Db → Prop) : Prop where
  trans : ∀ {first second third}, R first second → R second third → R first third
  events : ∀ revert hashIds db, R db (db.insertEvents revert hashIds)
  tables : ∀ {db after : Db}, after.bulkMode = db.bulkMode → after.event = db.event → R db after

/-- A statement leaves a state related to the one it is executed in. -/
def Relates (R : Db → Db → Prop) (statement : Db → Except SqlError Db) : Prop :=
  ∀ db after, statement db = .ok after → R db after

section Relations

variable {R : Db → Db → Prop}

theorem relates_ok {change : Db → Db} (h : ∀ db, R db (change db)) :
    Relates R fun db => .ok (change db) := by
  intro db after hok
  rw [← Except.ok.inj hok]
  exact h db

theorem relates_map {ρ : Type} {select : Db → Except SqlError (List ρ)}
    {change : List ρ → Db → Db} (h : ∀ rows db, R db (change rows db)) :
    Relates R fun db => (select db).map fun rows => change rows db := by
  intro db after hok
  cases hselect : select db with
  | error e => simp [hselect, Except.map] at hok
  | ok rows =>
      simp only [hselect, Except.map, Except.ok.injEq] at hok
      rw [← hok]
      exact h rows db

namespace Respected

variable (hR : Respected R)

include hR

theorem batchExecute {ρ : Type} {execute : Insert ρ → Db → Except SqlError Db}
    (h : ∀ statement, Relates R (execute statement)) (statements : List (Insert ρ)) :
    Relates R (batchExecute execute statements) := by
  induction statements with
  | nil =>
      intro db after hok
      rw [← Except.ok.inj hok]
      exact hR.tables rfl rfl
  | cons statement statements ih =>
      intro db after hok
      rw [Formatter.batchExecute] at hok
      cases hfirst : execute statement db with
      | error e => simp [hfirst] at hok
      | ok middle =>
          simp only [hfirst] at hok
          exact hR.trans (h statement db middle hfirst) (ih middle after hok)

/-- The six query strings of a batch. -/
theorem queries {queries : Queries} {statement : Db → Except SqlError Db}
    (hmem : statement ∈ queries.toList) : Relates R statement := by
  simp only [Queries.toList, List.mem_cons, List.not_mem_nil, or_false] at hmem
  obtain rfl | rfl | rfl | rfl | rfl | rfl := hmem <;> apply hR.batchExecute <;> intro statement
  · exact relates_ok fun db => hR.events false _ db
  all_goals exact relates_map fun _ _ => hR.tables rfl rfl

theorem executeAll {statements : List (Db → Except SqlError Db)}
    (h : ∀ statement ∈ statements, Relates R statement) (db : Db) :
    R db (executeAll statements db).1 := by
  induction statements generalizing db with
  | nil => exact hR.tables rfl rfl
  | cons statement statements ih =>
      rw [Formatter.executeAll]
      cases hstatement : statement db with
      | error e => exact hR.tables rfl rfl
      | ok middle =>
          have hrest := ih (fun other hmem => h other (List.mem_cons_of_mem statement hmem)) middle
          exact hR.trans (h statement List.mem_cons_self db middle hstatement) hrest

theorem reorg {statement : Db → Except SqlError Db} (h : ReorgStatement statement) :
    Relates R statement := by
  cases h with
  | query queries _ hmem => exact hR.queries hmem
  | revert height => exact relates_ok fun db => hR.events true _ db
  | event hashId => exact relates_ok fun db => hR.events false _ db
  | _ => exact relates_ok fun _ => hR.tables rfl rfl

/-- The workers execute nothing but the queries of batches. -/
theorem step (w : World) (event : WorkerEvent) : R w.db (w.step event).db := by
  cases hworkers : w.workers with
  | none =>
      rw [step_none hworkers]
      exact hR.tables rfl rfl
  | some p =>
      have htransition := transition_step hworkers event
      generalize w.step event = after at htransition ⊢
      cases htransition with
      | committed msg db hreceived hexecute =>
          have hqueries : ∀ query ∈ msg.queries.toList, Relates R query := fun _ => hR.queries
          have hrelated := hR.executeAll hqueries w.db
          rw [hexecute] at hrelated
          exact hrelated
      | _ => exact hR.tables rfl rfl

end Respected

end Relations

/-- They leave the state row alone. -/
theorem respected_state : Respected fun db after => after.bulkMode = db.bulkMode where
  trans := fun hfirst hsecond => hsecond.trans hfirst
  events := fun _ _ _ => rfl
  tables := fun hstate _ => hstate

theorem AllowsPlain.simple {B : (γ : Type) → Act γ → Prop} (h : AllowsPlain B) :
    AllowsSimple B := by
  intro γ access hsimple
  apply h
  cases access with
  | dropTx | spawn | execute | transExecute => exact hsimple.elim
  | _ => trivial

theorem AllowsPlain.reorg {B : (γ : Type) → Act γ → Prop} (h : AllowsPlain B) : AllowsReorg B := by
  intro γ access hreorg
  apply h
  cases access with
  | transExecute statement => exact respected_state.reorg hreorg
  | transQuery => trivial
  | _ => exact hreorg.elim

theorem AllowsQuiet.simple {B : (γ : Type) → Act γ → Prop} (h : AllowsQuiet B) : AllowsSimple B :=
  h.plain.simple

/-! ## Parts of programs -/

section Parts

variable {α : Type} {B : (γ : Type) → Act γ → Prop} {R : IndexerStore → IndexerStore → Prop}

theorem moves_assertThat [Std.Refl R] (condition : Bool) (reason : Panic) :
    Moves B R (assertThat condition reason) := by
  cases condition with
  | false => exact Moves.halt _
  | true => exact Moves.value ()

theorem moves_whenever [Std.Refl R] (condition : Bool) {action : StoreM Unit}
    (h : Moves B R action) : Moves B R (whenever condition action) := by
  cases condition with
  | false => exact Moves.value ()
  | true => exact h

end Parts

/-- A program part that changes no field and makes only allowed accesses. -/
abbrev Unmoved {α : Type} (B : (γ : Type) → Act γ → Prop) (prog : StoreM α) : Prop :=
  Moves B Eq prog

/-- A program part that leaves these fields alone and makes only allowed accesses. -/
def Keeps {α : Type} (B : (γ : Type) → Act γ → Prop) (prog : StoreM α) : Prop :=
  ∀ store, Ensures B (fun _ after => Same store after) prog store

variable {α β : Type} {B : (γ : Type) → Act γ → Prop} {prog : StoreM α}

instance : Std.Refl Same := ⟨Same.refl⟩

instance : IsTrans IndexerStore Same := ⟨fun _ _ _ => Same.trans⟩

theorem Unmoved.keeps (h : Unmoved B prog) : Keeps B prog := Moves.of_eq h

namespace Keeps

theorem value (a : α) : Keeps B (.pure a : StoreM α) := Moves.value a

theorem halt (reason : Halt) : Keeps B (.halt reason : StoreM α) := Moves.halt reason

theorem bind {rest : α → StoreM β} (h : Keeps B prog) (hrest : ∀ a, Keeps B (rest a)) :
    Keeps B (prog.bind rest) := Moves.bind h hrest

theorem perform {access : Act β} (haccess : B β access) : Keeps B (Store.perform access) :=
  Moves.perform haccess

theorem quiet {access : Act β} (hB : AllowsQuiet B) (hquiet : Quiet β access) :
    Keeps B (Store.perform access) :=
  perform (hB β access hquiet)

theorem plain {access : Act β} (hB : AllowsPlain B) (hplain : Plain β access) :
    Keeps B (Store.perform access) :=
  perform (hB β access hplain)

theorem simple {access : Act β} (hB : AllowsSimple B) (hsimple : Simple β access) :
    Keeps B (Store.perform access) :=
  perform (hB β access hsimple)

theorem reorg {access : Act β} (hB : AllowsReorg B) (hreorg : Reorganizing β access) :
    Keeps B (Store.perform access) :=
  perform (hB β access hreorg)

theorem statement {statement : Db → Except SqlError Db} (hB : AllowsReorg B)
    (hstatement : ReorgStatement statement) : Keeps B (Store.perform (.transExecute statement)) :=
  reorg hB hstatement

/-- Reading the store changes nothing. -/
theorem read {next : IndexerStore → StoreM α} (hnext : ∀ store, Keeps B (next store)) :
    Keeps B (.loc (fun store => (store, store)) next) := Moves.read hnext

theorem modify {change : IndexerStore → IndexerStore} (hchange : ∀ store, Same store (change store)) :
    Keeps B (modifyStore change) := hchange

theorem assertThat (condition : Bool) (reason : Panic) : Keeps B (assertThat condition reason) :=
  moves_assertThat condition reason

theorem whenever (condition : Bool) {action : StoreM Unit} (h : Keeps B action) :
    Keeps B (whenever condition action) := moves_whenever condition h

/-- What follows such a part still starts from the same fields. -/
theorem then_ensures {Q : β → IndexerStore → Prop} {rest : α → StoreM β}
    {store first : IndexerStore} (hfirst : Same store first) (h : Keeps B prog)
    (hrest : ∀ a middle, Same store middle → Ensures B Q (rest a) middle) :
    Ensures B Q (prog.bind rest) first :=
  Ensures.bind (fun a middle hmiddle => hrest a middle (hfirst.trans hmiddle)) (h first)

end Keeps

/-! ## Workers -/

theorem keeps_flushBatch (hB : AllowsSimple B) : Keeps B flushBatch := by
  simp only [flushBatch, Prog.bind_eq, Prog.read_bind]
  apply Keeps.read
  intro store
  split_ifs
  · exact Keeps.value ()
  · exact Keeps.bind (Keeps.modify fun _ => ⟨rfl, rfl, rfl⟩) fun _ =>
      Keeps.bind (Keeps.simple hB trivial) fun _ => Keeps.bind (Keeps.simple hB trivial) fun _ =>
        Keeps.modify fun _ => ⟨rfl, rfl, rfl⟩

theorem unmoved_stopWorkers (hB : AllowsSimple B) (hdrop : B Unit .dropTx) : Unmoved B stopWorkers :=
  Moves.act hdrop fun _ => Moves.act (hB _ _ trivial) fun _ => Moves.act (hB _ _ trivial) fun _ =>
    Moves.act (hB _ _ trivial) fun _ => Moves.perform (hB _ _ trivial)

theorem keeps_stopWorkers (hB : AllowsSimple B) (hdrop : B Unit .dropTx) : Keeps B stopWorkers :=
  (unmoved_stopWorkers hB hdrop).keeps

theorem ensures_startWorkers {store : IndexerStore}
    (hspawn : ∀ network, B Unit (.spawn store.mode network)) :
    Ensures B (fun _ after => Same store after) startWorkers store :=
  ⟨hspawn store.network, fun _ => .refl store⟩

/-! ### Until there are none -/

section Stopping

variable {γ : Type} {D : Discipline Act IndexerStore Halt World WorkerEvent Call}
variable {store : IndexerStore} {w : World}

/-- What is so where a part of a call returns, whatever is so before. -/
abbrev Afterwards (D : Discipline Act IndexerStore Halt World WorkerEvent Call) {α : Type}
    (Q : α → IndexerStore → World → Prop) (prog : StoreM α) (store : IndexerStore) (w : World) : Prop :=
  Safe system D (fun _ => True) (fun _ _ _ => True) Q prog store w

theorem stable_stopped : D.Stable system fun w => w.workers = none := by
  intro event w _ h
  change (w.step event).workers = none
  rwa [step_none h]

/-- Without workers nobody changes anything. -/
theorem stable_still (h : w.workers = none) : D.Stable system fun later => later = w := by
  rintro event later _ rfl
  exact step_none h event

/-- An access whose effect does not matter. -/
theorem afterwards_act {access : Act γ} {next : γ → StoreM α} {Q : α → IndexerStore → World → Prop}
    (hnext : ∀ value w, Afterwards D Q (next value) store w) :
    Afterwards D Q (.act access next) store w := by
  have hstable : D.Stable system fun _ => True := fun _ _ _ _ => trivial
  apply Safe.act hstable (fun _ _ => trivial) _ trivial
  intro ready _ fails _
  cases system.exec access fails ready with
  | blocked => trivial
  | done value after => exact hnext value after
  | halted reason after => trivial

theorem afterwards_stopWorkers :
    Afterwards D (fun _ after w => after = store ∧ w.workers = none) stopWorkers store w := by
  have hstable : D.Stable system fun _ => True := fun _ _ _ _ => trivial
  simp only [stopWorkers, Prog.bind_eq, Prog.perform_bind]
  apply afterwards_act
  intro _ dropped
  apply afterwards_act
  intro _ first
  apply afterwards_act
  intro _ second
  apply Safe.act hstable (fun _ _ => trivial) _ trivial
  intro third _ fails _
  simp only [system, systemOf_exec]
  cases hexec : exec (.join .writer) fails third with
  | blocked => trivial
  | halted reason after => trivial
  | done value after =>
      apply Safe.act stable_stopped (fun _ _ => trivial) _ (workers_join hexec)
      intro stopped hstopped fails _
      simp only [system, systemOf_exec, exec]
      split_ifs
      · exact ⟨rfl, hstopped⟩
      · trivial

theorem afterwards_of_ensures {Q : α → IndexerStore → Prop} (h : Ensures B Q prog store) :
    Afterwards D (fun value after _ => Q value after) prog store w := by
  have hstable : D.Stable system fun _ => True := fun _ _ _ _ => trivial
  apply (h.safe hstable (fun _ _ => trivial) (fun _ _ _ _ => trivial)
    (fun _ _ _ _ _ => trivial) trivial).mono
  exact fun _ _ _ hafter => hafter.1

end Stopping

/-! ## Reading -/

theorem unmoved_joinHash (parts : Option (HashId × List UInt8)) : Unmoved B (joinHash parts) := by
  cases parts with
  | none => exact Moves.value none
  | some parts =>
      rw [joinHash]
      cases hashIdAndRestToHash parts.1 parts.2 with
      | none => exact Moves.halt _
      | some hash => exact Moves.value _

theorem unmoved_readDbBlockHashByHeight (hB : AllowsSimple B) (height : BlockHeight) :
    Unmoved B (readDbBlockHashByHeight height) :=
  Moves.act (hB _ _ trivial) unmoved_joinHash

theorem keeps_readDbBlockHashByHeight (hB : AllowsSimple B) (height : BlockHeight) :
    Keeps B (readDbBlockHashByHeight height) :=
  (unmoved_readDbBlockHashByHeight hB height).keeps

theorem unmoved_readDbBlockHashByHeightTrans (hB : AllowsReorg B) (height : BlockHeight) :
    Unmoved B (readDbBlockHashByHeightTrans height) :=
  Moves.act (hB _ _ trivial) unmoved_joinHash

/-! ## Reorgs -/

theorem unmoved_firstDifferentHeight (hB : AllowsReorg B) (entries : List (BlockHeight × BlockData)) :
    Unmoved B (firstDifferentHeight entries) := by
  induction entries with
  | nil => exact Moves.value none
  | cons entry rest ih =>
      obtain ⟨height, block⟩ := entry
      apply (unmoved_readDbBlockHashByHeightTrans hB height).bind
      intro existing
      cases existing with
      | none => exact ih
      | some hash =>
          simp only
          split_ifs
          · exact Moves.value _
          · exact ih

theorem keeps_firstDifferentHeight (hB : AllowsReorg B) (entries : List (BlockHeight × BlockData)) :
    Keeps B (firstDifferentHeight entries) :=
  (unmoved_firstDifferentHeight hB entries).keeps

theorem unmoved_reviveBlock (hB : AllowsReorg B) (block : BlockData) : Unmoved B (reviveBlock block) :=
  Moves.act (hB _ _ (.unmark block.hashId)) fun _ =>
    Moves.act (hB _ _ (.clear block.height)) fun _ =>
      Moves.perform (hB _ _ (.event block.hashId))

theorem keeps_reviveOrCollect (hB : AllowsReorg B) (entries : List (BlockHeight × BlockData)) :
    ∀ prevHeight, Keeps B (reviveOrCollect entries prevHeight) := by
  induction entries with
  | nil => exact fun _ => Keeps.value ()
  | cons entry rest ih =>
      intro prevHeight
      obtain ⟨height, block⟩ := entry
      apply (Keeps.assertThat _ _).bind
      intro _
      apply Keeps.bind (Keeps.reorg hB (by trivial))
      intro extinct
      cases extinct with
      | none => exact Keeps.bind (Keeps.modify fun _ => ⟨rfl, rfl, rfl⟩) fun _ => ih _
      | some extinct =>
          cases extinct with
          | false => exact Keeps.halt _
          | true => exact (unmoved_reviveBlock hB block).keeps.bind fun _ => ih _

theorem unmoved_fetchOutputs (hB : AllowsReorg B) (queries : List (List HashIdOutPoint)) :
    ∀ out, Unmoved B (fetchOutputs queries out) := by
  induction queries with
  | nil => exact fun out => Moves.value out
  | cons chunk queries ih => exact fun out => Moves.act (hB _ _ trivial) fun out => ih out

theorem unmoved_processBlocks (hB : AllowsReorg B) (blocks : List BlockData) (txIds : TxIdMap) :
    Unmoved B (processBlocks blocks txIds) := by
  rw [processBlocks]
  cases UtxoSetCache.default.processLocal blocks txIds with
  | error reason => exact Moves.halt _
  | ok consumed =>
      exact (unmoved_fetchOutputs hB _ ∅).bind fun out =>
        (moves_assertThat _ _).bind fun _ => Moves.value _

theorem keeps_processBlocks (hB : AllowsReorg B) (blocks : List BlockData) (txIds : TxIdMap) :
    Keeps B (processBlocks blocks txIds) :=
  (unmoved_processBlocks hB blocks txIds).keeps

theorem unmoved_executeQueries (hB : AllowsReorg B) {statements : List (Db → Except SqlError Db)}
    (h : ∀ statement ∈ statements, ReorgStatement statement) : Unmoved B (executeQueries statements) := by
  induction statements with
  | nil => exact Moves.value ()
  | cons statement statements ih =>
      have hstatement : ReorgStatement statement := h statement List.mem_cons_self
      have hrest := ih fun other hmem => h other (List.mem_cons_of_mem statement hmem)
      exact Moves.act (hB _ _ hstatement) fun _ => hrest

theorem keeps_executeQueries (hB : AllowsReorg B) {statements : List (Db → Except SqlError Db)}
    (h : ∀ statement ∈ statements, ReorgStatement statement) : Keeps B (executeQueries statements) :=
  (unmoved_executeQueries hB h).keeps

theorem unmoved_insertBlocks (hB : AllowsReorg B) (hcommit : B Unit .commit) (blocks : List BlockData) :
    Unmoved B (insertBlocks blocks) := by
  simp only [insertBlocks, Prog.bind_eq, Prog.read_bind]
  apply Moves.read
  intro store
  apply (unmoved_processBlocks hB blocks _).bind
  intro inputsUtxoMap
  cases fmtInsertBlockdataSql blocks inputsUtxoMap (txIdMapFromBlocks blocks store.network)
    store.mode store.network with
  | error reason => exact Moves.halt _
  | ok queries =>
      have hqueries : ∀ statement ∈ queries.toList, ReorgStatement statement :=
        fun statement hmem => .query queries statement hmem
      exact (unmoved_executeQueries hB hqueries).bind fun _ => Moves.perform hcommit

theorem keeps_startReorg (block : BlockData) (store : IndexerStore) :
    Ensures B (fun _ after => Same store after) (do
      let store ← readStore
      assertThat store.batch.isEmpty .batchNotEmpty
      modifyStore fun store =>
        { store with pendingReorg := store.pendingReorg.insert block.height block }
      let store ← readStore
      assertThat store.isInReorg .notInReorg) store := by
  apply Ensures.bind _ (Keeps.assertThat _ _ store)
  intro _ first hfirst
  apply (Keeps.assertThat _ _ _).mono
  exact fun _ after hafter => hfirst.trans ⟨hafter.mode, hafter.chainBlockCount, hafter.nodeChainHeadHeight⟩

/-! ## Parts that start workers -/

section Spawning

variable {store : IndexerStore} (hB : AllowsSimple B)
variable (hspawn : ∀ network, B Unit (.spawn store.mode network))

include hB hspawn

theorem ensures_flushWorkers (hdrop : B Unit .dropTx) :
    Ensures B (fun _ after => Same store after) flushWorkers store := by
  apply Keeps.then_ensures (.refl store) (Keeps.simple hB (by trivial))
  intro stopped first hfirst
  cases stopped with
  | true => exact hfirst
  | false =>
      apply Keeps.then_ensures hfirst (keeps_flushBatch hB)
      intro _ flushed hflushed
      apply Keeps.then_ensures hflushed (Keeps.simple hB (by trivial))
      intro empty looked hlooked
      cases empty with
      | true => exact hlooked
      | false =>
          apply Keeps.then_ensures hlooked (keeps_stopWorkers hB hdrop)
          intro _ stopped hstopped
          apply (ensures_startWorkers (hstopped.mode ▸ hspawn)).mono
          exact fun _ after hafter => hstopped.trans hafter

/-- The block found below the tip is the same one, or the first of a reorg. -/
theorem ensures_insertBelowTip (hdrop : B Unit .dropTx) (block : BlockData) :
    Ensures B (fun _ after => Same store after) (insertBelowTip block) store := by
  apply Keeps.then_ensures (.refl store) (keeps_flushBatch hB)
  intro _ flushed hflushed
  apply Keeps.then_ensures hflushed (keeps_stopWorkers hB hdrop)
  intro _ stopped hstopped
  apply Keeps.then_ensures hstopped (keeps_readDbBlockHashByHeight hB block.height)
  intro dbHash found hsame
  cases dbHash with
  | none => trivial
  | some dbHash =>
      simp only
      split_ifs
      · apply (ensures_startWorkers (hsame.mode ▸ hspawn)).mono
        exact fun _ after hafter => hsame.trans hafter
      · apply (keeps_startReorg block found).mono
        exact fun _ after hafter => hsame.trans hafter

theorem ensures_getHashByHeight (hdrop : B Unit .dropTx) (height : BlockHeight) :
    Ensures B (fun _ after => Same store after) (getHashByHeight height) store := by
  simp only [getHashByHeight, Prog.bind_eq, Prog.read_bind, ensures_loc]
  split_ifs
  · exact .refl store
  · cases store.pendingReorg.get height with
    | some block => exact .refl store
    | none =>
        apply Ensures.bind _ (ensures_flushWorkers hB hspawn hdrop)
        intro _ flushed hflushed
        apply (keeps_readDbBlockHashByHeight hB height flushed).mono
        exact fun _ after hafter => hflushed.trans hafter

end Spawning

theorem ensures_finishReorg {store : IndexerStore} (hB : AllowsPlain B)
    (hspawn : ∀ network, B Unit (.spawn store.mode network)) : Ensures B (fun _ after => after.mode = store.mode ∧
    after.chainBlockCount = store.chainBlockCount + 1 ∧
      after.nodeChainHeadHeight = store.nodeChainHeadHeight) finishReorg store := by
  simp only [finishReorg, Prog.bind_eq, Prog.read_bind, Prog.modify_bind, ensures_loc]
  apply Keeps.then_ensures (.refl store) (Keeps.assertThat _ _)
  intro _ first hfirst
  apply Keeps.then_ensures hfirst (Keeps.plain hB (by trivial))
  intro stopped second hsecond
  apply Keeps.then_ensures hsecond (Keeps.assertThat _ _)
  intro _ third hthird
  apply Keeps.then_ensures hthird (Keeps.plain hB (by trivial))
  intro _ begun hbegun
  apply Keeps.then_ensures hbegun (keeps_firstDifferentHeight hB.reorg _)
  intro firstDifferent looked hlooked
  apply Keeps.then_ensures hlooked (Keeps.statement hB.reorg (.revert _))
  intro _ reverted hreverted
  apply Keeps.then_ensures hreverted (Keeps.statement hB.reorg (.mark _))
  intro _ marked hmarked
  rw [ensures_loc]
  have hcleared : Same store { marked with pendingReorg := .empty } :=
    hmarked.trans ⟨rfl, rfl, rfl⟩
  apply Keeps.then_ensures hcleared (keeps_reviveOrCollect hB.reorg _ _)
  intro _ revived hrevived
  -- the count is raised here, and the rest leaves it alone
  rw [ensures_loc, ensures_loc]
  apply Keeps.then_ensures (.refl _) (Keeps.assertThat _ _)
  intro _ raised hraised
  rw [ensures_loc]
  have htaken : Same _ { raised with batch := [] } := hraised.trans ⟨rfl, rfl, rfl⟩
  apply Keeps.then_ensures htaken (unmoved_insertBlocks hB.reorg (hB _ _ trivial) _).keeps
  intro _ inserted hinserted
  have hmode : inserted.mode = store.mode := hinserted.mode.trans hrevived.mode
  apply (ensures_startWorkers (hmode ▸ hspawn)).mono
  intro _ after hafter
  refine ⟨hafter.mode.trans hmode, ?_, ?_⟩
  · rw [hafter.chainBlockCount, hinserted.chainBlockCount]
    exact congrArg (· + 1) hrevived.chainBlockCount
  · rw [hafter.nodeChainHeadHeight, hinserted.nodeChainHeadHeight]
    exact hrevived.nodeChainHeadHeight

section Switching

variable {store : IndexerStore} (hB : AllowsSimple B) (mode : Mode)
variable (hdrop : B Unit .dropTx) (hspawn : ∀ network, B Unit (.spawn mode network))
variable (hschema : B Unit (.execute (Db.setSchema mode)))
variable (hupdate : B Unit (.execute (updateBulkMode mode)))

include hB hdrop hspawn hschema hupdate

/-- Setting a mode, with workers in that mode. -/
theorem ensures_setModeUncodintionally :
    Ensures B (fun _ after => after.mode = mode ∧
      after.chainBlockCount = store.chainBlockCount ∧
        after.nodeChainHeadHeight = store.nodeChainHeadHeight)
      (setModeUncodintionally mode) store := by
  simp only [setModeUncodintionally, Prog.bind_eq, Prog.modify_bind, ensures_loc]
  apply Ensures.bind _ (ensures_flushWorkers hB hspawn hdrop)
  intro _ flushed hflushed
  apply Keeps.then_ensures hflushed (Keeps.perform hschema)
  intro _ switched hswitched
  apply Ensures.mono _ (Keeps.perform hupdate switched)
  intro _ after hafter
  have hsame := hswitched.trans hafter
  exact ⟨hsame.mode, hsame.chainBlockCount, hsame.nodeChainHeadHeight⟩

theorem ensures_setMode :
    Ensures B (fun _ after => after.mode = mode ∧
      after.chainBlockCount = store.chainBlockCount ∧
        after.nodeChainHeadHeight = store.nodeChainHeadHeight) (setMode mode) store := by
  simp only [setMode, Prog.bind_eq, Prog.read_bind, ensures_loc]
  split_ifs with hmode
  · exact ⟨hmode, rfl, rfl⟩
  · exact ensures_setModeUncodintionally hB mode hdrop hspawn hschema hupdate

end Switching

/-! ## Inserting -/

section Inserting

variable {store : IndexerStore} {block : BlockData} {Q : Unit → IndexerStore → Prop}

/-- A block on the tip: either it is the last one of the node's chain, or the count is
raised and nothing else. -/
theorem ensures_insertExtending (hB : AllowsSimple B) (hdrop : B Unit .dropTx)
    (hspawn : ∀ network, B Unit (.spawn .normal network))
    (hschema : B Unit (.execute (Db.setSchema .normal)))
    (hupdate : B Unit (.execute (updateBulkMode .normal)))
    (hswitched : ∀ after, after.mode = .normal → Q () after)
    (hextended : ∀ after, Same (store.push block) after →
      store.nodeChainHeadHeight ≠ block.height → Q () after) :
    Ensures B Q (insertExtending block) store := by
  simp only [insertExtending, Prog.bind_eq, Prog.read_bind, Prog.modify_bind, ensures_loc]
  apply Keeps.then_ensures (.refl _) (Keeps.whenever _ (keeps_flushBatch hB))
  intro _ flushed hflushed
  by_cases hhead : store.nodeChainHeadHeight = block.height
  · have hwhen : decide ((store.push block).nodeChainHeadHeight = block.height) = true :=
      decide_eq_true hhead
    rw [hwhen, whenever_true]
    apply (ensures_setMode hB .normal hdrop hspawn hschema hupdate).mono
    exact fun _ after hafter => hswitched after hafter.1
  · have hwhen : decide ((store.push block).nodeChainHeadHeight = block.height) = false :=
      decide_eq_false hhead
    rw [hwhen, whenever_false]
    exact hextended flushed hflushed hhead

variable (hB : AllowsSimple B)

include hB

theorem ensures_insertWhenAtTip
    (hbelow : ∀ ready, Same store ready → Ensures B Q (insertBelowTip block) ready)
    (hextending : ∀ ready, Same store ready → block.height = store.chainBlockCount →
      Ensures B Q (insertExtending block) ready) :
    Ensures B Q (insertWhenAtTip block) store := by
  simp only [insertWhenAtTip, Prog.bind_eq, Prog.read_bind, ensures_loc]
  apply Keeps.then_ensures (.refl store) (Keeps.assertThat _ _)
  intro _ first hfirst
  apply Keeps.then_ensures hfirst (Keeps.simple hB (by trivial))
  intro stopped second hsecond
  apply Keeps.then_ensures hsecond (Keeps.assertThat _ _)
  intro _ third hthird
  apply Keeps.then_ensures hthird (Keeps.assertThat _ _)
  intro _ ready hready
  split_ifs with hheight
  · exact hbelow ready hready
  · exact hextending ready hready (not_not.1 hheight)

theorem ensures_insertWhenInReorg
    (hfinish : ∀ ready, Same store ready → block.height = store.chainBlockCount →
      Ensures B Q finishReorg ready)
    (hpending : ∀ after, Same store after → Q () after) :
    Ensures B Q (insertWhenInReorg block) store := by
  simp only [insertWhenInReorg, Prog.bind_eq, Prog.read_bind, Prog.modify_bind, ensures_loc]
  apply Keeps.then_ensures (.refl store) (Keeps.assertThat _ _)
  intro _ first hfirst
  apply Keeps.then_ensures hfirst (Keeps.simple hB (by trivial))
  intro stopped second hsecond
  apply Keeps.then_ensures hsecond (Keeps.assertThat _ _)
  intro _ third hthird
  apply Keeps.then_ensures hthird (Keeps.assertThat _ _)
  intro _ ready hready
  rw [ensures_loc]
  have hinserted : Same store { ready with
      pendingReorg := (ready.pendingReorg.below block.height).insert block.height block } :=
    hready.trans ⟨rfl, rfl, rfl⟩
  by_cases hheight : block.height = store.chainBlockCount
  · rw [decide_eq_true hheight, whenever_true]
    exact hfinish _ hinserted hheight
  · rw [decide_eq_false hheight, whenever_false]
    exact hpending _ hinserted

end Inserting

end BitcoinIndexer.Keeping
