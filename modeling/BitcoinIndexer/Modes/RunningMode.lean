import BitcoinIndexer.Chain.CurrentHeight
import BitcoinIndexer.Modes.Keeping

/-!
# The mode of the running workers

Workers capture the mode they are started with.  A switch starts them anew, except when
it finds nothing in flight: then they keep the old mode.
-/

namespace BitcoinIndexer.RunningMode

open BitcoinIndexer.Types
open BitcoinIndexer.Tables
open BitcoinIndexer.Worker
open BitcoinIndexer.Store
open BitcoinIndexer.Pipeline
open BitcoinIndexer.Grounding
open BitcoinIndexer.Following
open BitcoinIndexer.Schedules
open BitcoinIndexer.Guarantees
open BitcoinIndexer.CurrentHeight
open BitcoinIndexer.Keeping
open BitcoinIndexer.Interleaving

/-- A running pipeline has captured this mode. -/
def InMode (mode : Mode) (w : World) : Prop := ∀ p, w.workers = some p → p.mode = mode

/-- Moreover nobody is waiting for it to end. -/
def Attuned (mode : Mode) (w : World) : Prop :=
  ∀ p, w.workers = some p → p.mode = mode ∧ p.txOpen = true

/-- When `flush_workers` looks at `in_flight`, something is still there, or the workers
have the mode of the store. -/
def LooksInTime : {β : Type} → Act β → IndexerStore → World → Prop
  | _, .lookInFlight, store, w => w.inFlight ≠ ∅ ∨ InMode store.mode w
  | _, _, _, _ => True

/-- Calls come in turn, and every look is in time. -/
def timely : Discipline Act IndexerStore Halt World WorkerEvent Call :=
  { answered with access := LooksInTime }

variable {α γ : Type} {store : IndexerStore} {block : BlockData} {w after : World} {mode : Mode}

theorem Attuned.inMode (h : Attuned mode w) : InMode mode w := fun p hp => (h p hp).1

theorem attuned_none (h : w.workers = none) : Attuned mode w := by
  intro p hp
  rw [h] at hp
  exact absurd hp (by simp)

/-- Workers there are after a step were there before it, with what they captured. -/
def Captured (w after : World) : Prop :=
  ∀ q, after.workers = some q → ∃ p, w.workers = some p ∧ q.mode = p.mode ∧ q.txOpen = p.txOpen

theorem captured_of_eq (h : after.workers = w.workers) : Captured w after :=
  fun q hq => ⟨q, h ▸ hq, rfl, rfl⟩

theorem Captured.attuned (h : Captured w after) (hattuned : Attuned mode w) :
    Attuned mode after := by
  intro q hq
  obtain ⟨p, hp, hmode, hopen⟩ := h q hq
  rw [hmode, hopen]
  exact hattuned p hp

theorem Captured.inMode (h : Captured w after) (hmode : InMode mode w) : InMode mode after := by
  intro q hq
  obtain ⟨p, hp, hsame, -⟩ := h q hq
  rw [hsame]
  exact hmode p hp

theorem captured_step (event : WorkerEvent) (w : World) : Captured w (w.step event) := by
  cases hworkers : w.workers with
  | none =>
      rw [step_none hworkers]
      exact captured_of_eq rfl
  | some p =>
      have htransition := transition_step hworkers event
      generalize w.step event = after at htransition
      cases htransition with
      | stay => exact captured_of_eq rfl
      | _ => exact fun q hq => ⟨p, hworkers, by obtain rfl := Option.some.inj hq; exact ⟨rfl, rfl⟩⟩

theorem captured_exec {access : Act γ} (hquiet : Quiet γ access) (fails : Bool) (w : World) :
    Captured w ((exec access fails w).after w) := by
  have haccessed := accessed_exec access fails w
  generalize (exec access fails w).after w = after at haccessed
  cases haccessed with
  | dropped | spawned => exact absurd hquiet id
  | handed batch p hworkers =>
      intro q hq
      obtain rfl := Option.some.inj hq
      exact ⟨p, hworkers, rfl, rfl⟩
  | joined thread => exact fun q hq => absurd hq (by simp)
  | aborted => exact captured_of_eq (workers_abort w)
  | _ => exact captured_of_eq rfl

/-- Where there are no workers, only a new start brings some. -/
theorem afterwards_quiet {D : Discipline Act IndexerStore Halt World WorkerEvent Call}
    {Q : α → IndexerStore → Prop} {prog : StoreM α}
    (h : Ensures Quiet Q prog store) (hnone : w.workers = none) :
    Afterwards D (fun value after w => Q value after ∧ w.workers = none) prog store w := by
  apply h.safe stable_stopped (fun _ _ => trivial) (fun _ _ _ _ => trivial) _ hnone
  intro γ access fails before hquiet hbefore
  cases hafter : ((exec access fails before).after before).workers with
  | none => exact hafter
  | some q =>
      obtain ⟨p, hp, -⟩ := captured_exec hquiet fails before q hafter
      rw [hbefore] at hp
      exact absurd hp (by simp)

/-! ## Accesses that keep the mode -/

/-- No worker is ended, and none started in another mode. -/
def Steady (mode : Mode) : (γ : Type) → Act γ → Prop
  | _, .dropTx => False
  | _, .spawn spawned _ => spawned = mode
  | _, _ => True

theorem allowsQuiet_steady (mode : Mode) : AllowsQuiet (Steady mode) := by
  intro γ access hquiet
  cases access <;> trivial

theorem attuned_exec {access : Act γ} (hsteady : Steady mode γ access) (fails : Bool)
    (h : Attuned mode w) : Attuned mode ((exec access fails w).after w) := by
  by_cases hquiet : Quiet γ access
  · exact (captured_exec hquiet fails w).attuned h
  · cases access with
    | dropTx => exact absurd hsteady id
    | spawn spawned network =>
        intro q hq
        obtain rfl := Option.some.inj hq
        exact ⟨hsteady, rfl⟩
    | _ => exact absurd trivial hquiet

theorem stable_attuned (mode : Mode) : timely.Stable system (Attuned mode) :=
  fun event w _ h => (captured_step event w).attuned h

abbrev Timely {α : Type} (Q : α → IndexerStore → World → Prop) (prog : StoreM α)
    (store : IndexerStore) (w : World) : Prop :=
  Safe system timely (fun _ => True) (fun _ _ _ => True) Q prog store w

theorem timely_of_ensures {Q : α → IndexerStore → Prop} {prog : StoreM α}
    (h : Ensures (Steady mode) Q prog store) (hattuned : Attuned mode w) :
    Timely (fun value after w => Q value after ∧ Attuned mode w) prog store w :=
  h.safe (stable_attuned mode) (fun _ _ => trivial) (fun _ _ _ _ => trivial)
    (fun _ fails _ hsteady h => attuned_exec hsteady fails h) hattuned

/-! ## Starting workers anew -/

theorem timely_startWorkers (h : w.workers = none) :
    Timely (fun _ after w => after = store ∧ Attuned store.mode w) startWorkers store w := by
  have hstart : Ensures (Steady store.mode) (fun _ after => after = store) startWorkers store :=
    ⟨rfl, fun _ => rfl⟩
  exact timely_of_ensures hstart (attuned_none h)

/-- Whatever mode the workers had, they have the mode of the store after
`flush_workers`. -/
theorem timely_flushWorkers {old : Mode} (h : Attuned old w) :
    Timely (fun _ after w => Same store after ∧ Attuned store.mode w) flushWorkers store w := by
  simp only [flushWorkers, Prog.bind_eq, Prog.perform_bind]
  apply Safe.act (stable_attuned old) (fun _ _ => trivial) _ h
  intro ready hready fails _
  cases hstopped : !(ready.workers.any (·.txOpen)) with
  | true =>
      have hnone : ready.workers = none := by
        cases hworkers : ready.workers with
        | none => rfl
        | some p => simp [hworkers, (hready p hworkers).2] at hstopped
      simp only [system, systemOf_exec, exec, hstopped, if_true]
      exact ⟨.refl store, attuned_none hnone⟩
  | false =>
      simp only [system, systemOf_exec, exec, hstopped, Bool.false_eq_true, if_false]
      apply Safe.bind _ (timely_of_ensures (keeps_flushBatch (allowsQuiet_steady old).simple store) hready)
      rintro _ flushed sent ⟨hsame, hsent⟩
      apply Safe.act (stable_attuned old) (fun _ _ => trivial) _ hsent
      intro looked hlooked fails hintime
      by_cases hempty : looked.inFlight = ∅
      · -- nothing in flight: the workers stay, and have the mode already
        have hmode : InMode flushed.mode looked := hintime.resolve_left (not_not.2 hempty)
        simp only [system, systemOf_exec, exec, hempty, decide_true, if_true]
        refine ⟨hsame, fun p hp => ⟨?_, (hlooked p hp).2⟩⟩
        rw [hmode p hp, hsame.mode]
      · simp only [system, systemOf_exec, exec, hempty, decide_false, Bool.false_eq_true, if_false,
          flushWorkersUnconditionally, Prog.bind_eq]
        apply Safe.bind _ afterwards_stopWorkers
        rintro _ _ stopped ⟨rfl, hnone⟩
        apply Safe.mono _ (timely_startWorkers hnone)
        rintro _ _ started ⟨rfl, hattuned⟩
        exact ⟨hsame, hsame.mode ▸ hattuned⟩

theorem timely_setModeUncodintionally {old : Mode} (h : Attuned old w) (mode : Mode) :
    Timely (fun _ after w => after.mode = mode ∧ Attuned mode w) (setModeUncodintionally mode)
      store w := by
  simp only [setModeUncodintionally, Prog.bind_eq, Prog.modify_bind, safe_loc]
  apply Safe.bind _ (timely_flushWorkers h)
  rintro _ flushed restarted ⟨hsame, hattuned⟩
  have hrest : Keeps (Steady mode) ((setSchemaToMode mode).bind fun _ =>
      perform (.execute (updateBulkMode mode))) :=
    Keeps.bind (Keeps.quiet (allowsQuiet_steady mode) trivial) fun _ =>
      Keeps.quiet (allowsQuiet_steady mode) trivial
  apply (timely_of_ensures (hrest flushed) hattuned).mono
  exact fun _ after w hafter => ⟨hafter.1.mode.trans hsame.mode, hafter.2⟩

theorem timely_setMode (h : Attuned store.mode w) (mode : Mode) :
    Timely (fun _ after w => after.mode = mode ∧ Attuned mode w) (setMode mode) store w := by
  simp only [setMode, Prog.bind_eq, Prog.read_bind, safe_loc]
  split_ifs with hmode
  · exact ⟨hmode, hmode ▸ h⟩
  · exact timely_setModeUncodintionally h mode

/-! ## The calls -/

/-- The workers of a store have its mode. -/
def Current (store : IndexerStore) (w : World) : Prop := Attuned store.mode w

/-- What follows a part that leaves the mode and the workers alone. -/
theorem timely_then {β : Type} {prog : StoreM α} {rest : α → StoreM β} {first : IndexerStore}
    {Q : β → IndexerStore → World → Prop} (hfirst : Same store first)
    (h : Keeps (Steady store.mode) prog) (hattuned : Attuned store.mode w)
    (hrest : ∀ a middle w, Same store middle → Attuned store.mode w → Timely Q (rest a) middle w) :
    Timely Q (prog.bind rest) first w := by
  apply Safe.bind _ (timely_of_ensures (h first) hattuned)
  exact fun a middle w hmiddle => hrest a middle w (hfirst.trans hmiddle.1) hmiddle.2

/-- A part that leaves the mode alone and starts workers in it at most. -/
theorem timely_of_mode {prog : StoreM α} (h : Ensures (Steady store.mode)
      (fun _ after => after.mode = store.mode) prog store) (hcurrent : Current store w) :
    Timely (fun _ after w => Current after w) prog store w := by
  apply (timely_of_ensures h hcurrent).mono
  rintro _ after w ⟨hmode, hattuned⟩
  rw [Current, hmode]
  exact hattuned

theorem timely_insertBelowTip {first : IndexerStore} (hfirst : Same store first)
    (h : Attuned store.mode w) :
    Timely (fun _ after w => Current after w) (insertBelowTip block) first w := by
  have hB := allowsQuiet_steady store.mode
  simp only [insertBelowTip, Prog.bind_eq]
  apply timely_then hfirst (keeps_flushBatch hB.simple) h
  intro _ flushed sent hflushed _
  apply Safe.bind _ afterwards_stopWorkers
  rintro _ _ stopped ⟨rfl, hnone⟩
  apply timely_then hflushed (keeps_readDbBlockHashByHeight hB.simple block.height) (attuned_none hnone)
  intro dbHash found ready hfound hready
  have hcurrent : Current found ready := by rwa [Current, hfound.mode]
  cases dbHash with
  | none => trivial
  | some dbHash =>
      simp only
      split_ifs
      · exact timely_of_mode ⟨rfl, fun _ => rfl⟩ hcurrent
      · apply timely_of_mode _ hcurrent
        exact (keeps_startReorg block found).mono fun _ after hafter => hafter.mode

theorem timely_insertExtending {first : IndexerStore} (hfirst : Same store first)
    (h : Attuned store.mode w) :
    Timely (fun _ after w => Current after w) (insertExtending block) first w := by
  simp only [insertExtending, Prog.bind_eq, Prog.read_bind, Prog.modify_bind, safe_loc]
  have hflush : Keeps (Steady store.mode) (whenever (!(first.push block).mode.isBulk ||
      decide ((first.push block).batchTxsTotal > 100000)) flushBatch) :=
    Keeps.whenever _ (keeps_flushBatch (allowsQuiet_steady store.mode).simple)
  apply Safe.bind _ (timely_of_ensures (hflush (first.push block)) h)
  rintro _ flushed sent ⟨hsame, hattuned⟩
  have hmode : flushed.mode = store.mode := hsame.mode.trans hfirst.mode
  have hcurrent : Current flushed sent := by rwa [Current, hmode]
  cases decide ((first.push block).nodeChainHeadHeight = block.height) with
  | false => exact hcurrent
  | true =>
      apply (timely_setMode hcurrent .normal).mono
      rintro _ after w ⟨hmode, hattuned⟩
      rwa [Current, hmode]

theorem timely_insertWhenAtTip (h : Current store w) :
    Timely (fun _ after w => Current after w) (insertWhenAtTip block) store w := by
  have hB := allowsQuiet_steady store.mode
  simp only [insertWhenAtTip, Prog.bind_eq, Prog.read_bind, safe_loc]
  apply timely_then (.refl store) (Keeps.assertThat _ _) h
  intro _ first w hfirst h
  apply timely_then hfirst (Keeps.quiet hB (by trivial)) h
  intro stopped second w hsecond h
  apply timely_then hsecond (Keeps.assertThat _ _) h
  intro _ third w hthird h
  apply timely_then hthird (Keeps.assertThat _ _) h
  intro _ ready w hready h
  split_ifs
  · exact timely_insertBelowTip hready h
  · exact timely_insertExtending hready h

theorem timely_finishReorg (h : Current store w) :
    Timely (fun _ after w => Current after w) finishReorg store w := by
  have hspawn : ∀ network, Steady store.mode Unit (.spawn store.mode network) := fun _ => rfl
  apply timely_of_mode _ h
  apply (ensures_finishReorg (allowsQuiet_steady store.mode).plain hspawn).mono
  exact fun _ after hafter => hafter.1

theorem timely_insertWhenInReorg (h : Current store w) :
    Timely (fun _ after w => Current after w) (insertWhenInReorg block) store w := by
  have hB := allowsQuiet_steady store.mode
  simp only [insertWhenInReorg, Prog.bind_eq, Prog.read_bind, Prog.modify_bind, safe_loc]
  apply timely_then (.refl store) (Keeps.assertThat _ _) h
  intro _ first w hfirst h
  apply timely_then hfirst (Keeps.quiet hB (by trivial)) h
  intro stopped second w hsecond h
  apply timely_then hsecond (Keeps.assertThat _ _) h
  intro _ third w hthird h
  apply timely_then hthird (Keeps.assertThat _ _) h
  intro _ ready w hready h
  rw [Timely, safe_loc]
  have hmode : ready.mode = store.mode := hready.mode
  have hcurrent : Current { ready with
      pendingReorg := (ready.pendingReorg.below block.height).insert block.height block } w := by
    rwa [Current, hmode]
  cases decide (block.height = store.chainBlockCount) with
  | false => exact hcurrent
  | true =>
      exact timely_finishReorg hcurrent

theorem timely_insert (h : Current store w) :
    Timely (fun _ after w => Current after w) (Store.insert block) store w := by
  simp only [Store.insert, Prog.bind_eq, Prog.read_bind, safe_loc]
  split_ifs
  · exact timely_insertWhenInReorg h
  · exact timely_insertWhenAtTip h

theorem timely_getHashByHeight (h : Current store w) (height : BlockHeight) :
    Timely (fun _ after w => Current after w) (getHashByHeight height) store w := by
  simp only [getHashByHeight, Prog.bind_eq, Prog.read_bind, safe_loc]
  split_ifs
  · exact h
  · cases store.pendingReorg.get height with
    | some block => exact h
    | none =>
        apply Safe.bind _ (timely_flushWorkers h)
        rintro _ flushed w ⟨hsame, hattuned⟩
        have hcurrent : Current flushed w := by rwa [Current, hsame.mode]
        apply timely_of_mode _ hcurrent
        exact (keeps_readDbBlockHashByHeight (allowsQuiet_steady _).simple height flushed).mono
          fun _ after hafter => hafter.mode

theorem timely_selfTest (h : Current store w) :
    Timely (fun _ after w => Current after w) selfTest store w := by
  have hset : ∀ {rest : Unit → StoreM Unit} (mode : Mode) {first : IndexerStore} {w : World},
      Current first w → (∀ second w, Current second w →
        Timely (fun _ after w => Current after w) (rest ()) second w) →
      Timely (fun _ after w => Current after w) ((setModeUncodintionally mode).bind rest) first w := by
    intro rest mode first w hcurrent hrest
    apply Safe.bind _ (timely_setModeUncodintionally hcurrent mode)
    rintro _ second w ⟨hmode, hattuned⟩
    apply hrest
    rwa [Current, hmode]
  simp only [selfTest, Prog.bind_eq, Prog.read_bind, safe_loc]
  apply timely_then (.refl store) (Keeps.assertThat _ _) h
  intro _ first w hfirst h
  have hcurrent : Current first w := by rwa [Current, hfirst.mode]
  apply hset .freshBulk hcurrent
  intro second w hcurrent
  apply hset .bulk hcurrent
  intro third w hcurrent
  apply hset .normal hcurrent
  intro fourth w hcurrent
  apply hset .bulk hcurrent
  intro fifth w hcurrent
  apply (timely_setModeUncodintionally hcurrent .freshBulk).mono
  rintro _ after w ⟨hmode, hattuned⟩
  rwa [Current, hmode]

theorem keeps_readIndexerState : Keeps Quiet readIndexerState := by
  have hB : AllowsQuiet Quiet := fun _ _ hquiet => hquiet
  apply Keeps.bind (Keeps.quiet hB (by trivial))
  intro state
  cases state with
  | some mode => exact Keeps.value mode
  | none => exact Keeps.bind (Keeps.quiet hB trivial) fun _ => Keeps.value _

theorem timely_new (nodeChainHeadHeight : BlockHeight) (network : Network)
    (hnone : w.workers = none) :
    Timely (fun _ after w => Current after w) (new nodeChainHeadHeight network) store w := by
  have hB : AllowsQuiet Quiet := fun _ _ hquiet => hquiet
  simp only [new, Prog.bind_eq, Prog.modify_bind, Prog.read_bind]
  apply Safe.bind _ (afterwards_quiet (Keeps.quiet hB (by trivial) store) hnone)
  rintro _ first w ⟨-, hnone⟩
  apply Safe.bind _ (afterwards_quiet (keeps_readIndexerState first) hnone)
  rintro mode second w ⟨-, hnone⟩
  apply Safe.bind _ (afterwards_quiet (Keeps.quiet hB (by trivial) second) hnone)
  rintro chainBlockCount third w ⟨-, hnone⟩
  apply Safe.bind _ (afterwards_quiet (Keeps.quiet hB (by trivial) third) hnone)
  rintro chainCurrentBlockCount fourth w ⟨-, hnone⟩
  apply Safe.bind _ (afterwards_quiet (Keeps.assertThat _ _ fourth) hnone)
  rintro _ fifth w ⟨-, hnone⟩
  rw [safe_loc]
  have hopened : Current (.opened mode network nodeChainHeadHeight chainBlockCount) w :=
    attuned_none hnone
  have htested : Timely (fun _ after w => Current after w)
      (whenever (decide (mode = .freshBulk)) selfTest)
      (.opened mode network nodeChainHeadHeight chainBlockCount) w := by
    cases decide (mode = .freshBulk) with
    | false => exact hopened
    | true => exact timely_selfTest hopened
  apply Safe.bind _ htested
  intro _ tested w hcurrent
  rw [safe_loc]
  apply timely_then (.refl tested) (Keeps.quiet (allowsQuiet_steady tested.mode) (by trivial)) hcurrent
  intro _ ready w hready hattuned
  have hcurrent : Current ready w := by rwa [Current, hready.mode]
  exact timely_of_mode ⟨rfl, fun _ => rfl⟩ hcurrent

/-! ## Runs -/

theorem stable_current (store : IndexerStore) : timely.Stable system (Current store) :=
  stable_attuned store.mode

theorem timely_call {call : Call} {c : StoreConfig} (hcall : timely.call call c)
    (hsafe : SafeConfig system timely (fun _ => True) (fun _ _ _ => True) Current c) :
    Timely (fun _ after w => Current after w) (system.body call) c.locals
      (system.enter call c.shared) := by
  cases call with
  | start nodeChainHeadHeight network resume => exact timely_new nodeChainHeadHeight network rfl
  | insert block =>
      rw [SafeConfig, show c.prog = .pure () from hcall] at hsafe
      exact timely_insert hsafe
  | getHashByHeight height =>
      rw [SafeConfig, show c.prog = .pure () from hcall] at hsafe
      apply Safe.bind _ (timely_getHashByHeight hsafe height)
      exact fun _ _ _ hcurrent => hcurrent

theorem current_run (labels : List StoreLabel) (hfollows : timely.follows system labels initial) :
    SafeConfig system timely (fun _ => True) (fun _ _ _ => True) Current
      (system.run labels initial) := by
  apply SafeConfig.run stable_current (fun _ _ _ _ _ h => h) labels initial
    (fun _ _ _ hcall hsafe => timely_call hcall hsafe) hfollows
  trivial

/-! ## After the switch -/

/-- Workers are started in normal mode only. -/
def SpawnsNormal : (γ : Type) → Act γ → Prop
  | _, .spawn mode _ => mode = .normal
  | _, _ => True

theorem allowsQuiet_spawnsNormal : AllowsQuiet SpawnsNormal := by
  intro γ access hquiet
  cases access <;> trivial

theorem inMode_exec {access : Act γ} (hspawns : SpawnsNormal γ access) (fails : Bool)
    (h : InMode .normal w) : InMode .normal ((exec access fails w).after w) := by
  by_cases hquiet : Quiet γ access
  · exact (captured_exec hquiet fails w).inMode h
  · cases access with
    | dropTx =>
        intro q hq
        obtain ⟨p, hp, rfl⟩ := Option.map_eq_some_iff.1 hq
        exact h p hp
    | spawn mode network =>
        intro q hq
        obtain rfl := Option.some.inj hq
        exact hspawns
    | _ => exact absurd trivial hquiet

theorem ensures_insert_normal (hnormal : store.mode = .normal) :
    Ensures SpawnsNormal (fun _ after => after.mode = .normal) (Store.insert block) store := by
  have hB := allowsQuiet_spawnsNormal
  have hmode : ∀ {after : IndexerStore}, Same store after → after.mode = .normal :=
    fun hafter => hafter.mode.trans hnormal
  have hspawn : ∀ {after : IndexerStore}, Same store after → ∀ network,
      SpawnsNormal Unit (.spawn after.mode network) := fun hafter _ => hmode hafter
  simp only [Store.insert, Prog.bind_eq, Prog.read_bind, ensures_loc]
  split_ifs
  · apply ensures_insertWhenInReorg hB.simple _ fun _ hafter => hmode hafter
    intro ready hready _
    apply (ensures_finishReorg hB.plain (hspawn hready)).mono
    exact fun _ after hafter => hafter.1.trans (hmode hready)
  · apply ensures_insertWhenAtTip hB.simple
    · intro ready hready
      apply (ensures_insertBelowTip hB.simple (hspawn hready) trivial block).mono
      exact fun _ after hafter => hmode (hready.trans hafter)
    · intro ready hready _
      apply ensures_insertExtending hB.simple trivial (fun _ => rfl) trivial trivial
        fun _ hafter => hafter
      intro after hafter _
      have hready' : ready.mode = .normal := hmode hready
      exact hafter.mode.trans hready'

/-- What a call started in normal mode leaves running is in normal mode. -/
theorem timely_normal {prog : StoreM Unit}
    (h : Ensures SpawnsNormal (fun _ after => after.mode = .normal) prog store)
    (hmode : InMode .normal w) :
    Safe system timely (InMode .normal) (fun _ _ => InMode .normal)
      (fun _ after w => after.mode = .normal ∧ InMode .normal w) prog store w :=
  h.safe (fun event w _ h => (captured_step event w).inMode h) (fun _ h => h) (fun _ _ _ h => h)
    (fun _ fails _ hspawns h => inMode_exec hspawns fails h) hmode

def Restarts (label : StoreLabel) : Prop :=
  ∃ nodeChainHeadHeight network resume, label = .call (.start nodeChainHeadHeight network resume)

theorem normal_run (labels : List StoreLabel) (c : StoreConfig)
    (hrestart : ∀ label ∈ labels, ¬ Restarts label) (hfollows : timely.follows system labels c)
    (hreturned : c.prog = .pure ()) (hnormal : c.locals.mode = .normal)
    (hmode : InMode .normal c.shared) : InMode .normal (system.run labels c).shared := by
  have hsafe : SafeConfig system timely (InMode .normal) (fun _ _ => InMode .normal)
      (fun after w => after.mode = .normal ∧ InMode .normal w) (system.run labels c) := by
    apply SafeConfig.run (fun _ event w _ h => ⟨h.1, (captured_step event w).inMode h.2⟩)
      (fun _ _ event w _ h => (captured_step event w).inMode h) labels c _ hfollows
    · rw [SafeConfig, hreturned]
      exact ⟨hnormal, hmode⟩
    · intro call c hmem hcall hsafe
      cases call with
      | start nodeChainHeadHeight network resume =>
          exact absurd ⟨nodeChainHeadHeight, network, resume, rfl⟩ (hrestart _ hmem)
      | insert block =>
          rw [SafeConfig, show c.prog = .pure () from hcall] at hsafe
          exact timely_normal (ensures_insert_normal hsafe.1) hsafe.2
      | getHashByHeight height =>
          rw [SafeConfig, show c.prog = .pure () from hcall] at hsafe
          have hspawn : ∀ network, SpawnsNormal Unit (.spawn c.locals.mode network) :=
            fun _ => hsafe.1
          apply timely_normal _ hsafe.2
          apply Ensures.bind _ (ensures_getHashByHeight allowsQuiet_spawnsNormal.simple hspawn trivial height)
          exact fun _ after hafter => hafter.mode.trans hsafe.1
  have hreturns : ∀ (after : IndexerStore) (w : World),
      after.mode = .normal ∧ InMode .normal w → InMode .normal w := fun _ _ h => h.2
  exact hsafe.always hreturns fun _ _ _ h => h

/-- Where every look is in time, running workers have the mode of the store whenever a
call has returned; and once that mode is normal, all workers of the process are. -/
theorem workers_in_current_mode (labels more : List StoreLabel)
    (hfollows : timely.follows system (labels ++ more) initial)
    (hrestart : ∀ label ∈ more, ¬ Restarts label) :
    let c := system.run labels initial
    c.prog = .pure () → InMode c.locals.mode c.shared ∧
      (c.locals.mode = .normal →
        InMode .normal (system.run (labels ++ more) initial).shared) := by
  intro c hreturned
  obtain ⟨hlabels, hmore⟩ := (Discipline.follows_append system timely labels more initial).1 hfollows
  have hsafe := current_run labels hlabels
  change SafeConfig _ _ _ _ _ c at hsafe
  rw [SafeConfig, hreturned] at hsafe
  have hmode : InMode c.locals.mode c.shared := Attuned.inMode hsafe
  refine ⟨hmode, fun hnormal => ?_⟩
  rw [System.run_append]
  exact normal_run more c hrestart hmore hreturned hnormal (hnormal ▸ hmode)

/-! ## Two switches -/

def checkLook (c : StoreConfig) : Bool :=
  match c.prog with
  | .act .lookInFlight _ =>
      decide (c.shared.inFlight ≠ ∅) || c.shared.workers.all (·.mode = c.locals.mode)
  | _ => true

def checkTimely : StoreLabel → StoreConfig → Bool
  | .step _, c => checkLook c
  | label, c => checkAnswered label c

theorem timely_of_check (label : StoreLabel) (c : StoreConfig) (h : checkTimely label c = true) :
    timely.admits label c := by
  cases label with
  | other event => trivial
  | call call => exact answered_of_check (.call call) c h
  | step fails =>
      intro β access next hprog
      cases access with
      | lookInFlight =>
          rw [checkTimely, checkLook, hprog, Bool.or_eq_true, decide_eq_true_eq] at h
          apply h.imp_right
          intro hall p hp
          simpa [hp] using hall
      | _ => trivial

/-- The first block, at the head of the node's chain. -/
def firstBlock : BlockData := minedBlock 0 1 0 11

/-- The switch looks while the batch is under way; another block follows. -/
@[irreducible]
def patient : List StoreLabel := opening 0 .bitcoin ++ calling (.insert firstBlock) 40

@[irreducible]
def following : List StoreLabel := calling (.insert (minedBlock 1 2 1 12)) 40

/-- The switch looks after the batch has been committed and removed. -/
@[irreducible]
def hasty : List StoreLabel :=
  opening 0 .bitcoin ++ .call (.insert firstBlock) :: (List.replicate 4 (.step false) ++
    (List.replicate 10
      [.other (.writer none), .other (.queryFmt false), .other (.utxo false)]).flatten ++
    List.replicate 3 (.step false))

theorem patient_switch :
    InMode .normal (system.run (patient ++ following) initial).shared ∧
      (system.run (patient ++ following) initial).shared.workers.isSome = true := by
  have hfollows : timely.follows system (patient ++ following) initial :=
    follows_of_checkRun timely_of_check (patient ++ following) initial (by decide +kernel)
  have hrestart : ∀ label ∈ following, ¬ Restarts label := by
    rintro label hmem ⟨nodeChainHeadHeight, network, resume, rfl⟩
    simp [following, calling, Schedules.round] at hmem
  have hcurrent := workers_in_current_mode patient following hfollows hrestart
  have hreturned : (system.run patient initial).prog = .pure () :=
    eq_pure_of_returned (by decide +kernel)
  have hnormal : (system.run patient initial).locals.mode = .normal := by decide +kernel
  have hrunning : (system.run (patient ++ following) initial).shared.workers.isSome = true := by
    decide +kernel
  exact ⟨(hcurrent hreturned).2 hnormal, hrunning⟩

theorem firstBlock_injective : Set.InjOn BlockData.hashId {block | block ∈ [firstBlock]} := by
  intro left hleft right hright _
  have hleft' : left = firstBlock := List.mem_singleton.1 hleft
  have hright' : right = firstBlock := List.mem_singleton.1 hright
  rw [hleft', hright']

instance (injective) (network : Network) : DecidablePred (· ∈
    (unrestricted {block | block ∈ [firstBlock]} injective network).given) :=
  fun block => inferInstanceAs (Decidable (block ∈ [firstBlock]))

/-- The workers keep the mode they were started with. -/
theorem hasty_switch_keeps_old_mode :
    ¬ ∀ (given : Set BlockData) (injective : Set.InjOn BlockData.hashId given) (network : Network)
      (labels : List StoreLabel),
        (prefetched (unrestricted given injective network)).follows system labels initial →
          let c := system.run labels initial
          c.prog = .pure () → InMode c.locals.mode c.shared := by
  intro h
  have hfollows : (prefetched (unrestricted {block | block ∈ [firstBlock]} firstBlock_injective
      .bitcoin)).follows system hasty initial :=
    follows_of_check hasty initial (by decide +kernel)
  have hreturned : (system.run hasty initial).prog = .pure () :=
    eq_pure_of_returned (by decide +kernel)
  have hmode := h {block | block ∈ [firstBlock]} firstBlock_injective .bitcoin hasty hfollows
    hreturned
  have hstale : (system.run hasty initial).shared.workers.any
      (·.mode ≠ (system.run hasty initial).locals.mode) = true := by
    decide +kernel
  obtain ⟨p, hp, hne⟩ := (Option.any_eq_true _ _).1 hstale
  exact of_decide_eq_true hne (hmode p hp)

end BitcoinIndexer.RunningMode
