import BitcoinIndexer.Chain.CurrentHeight
import BitcoinIndexer.Modes.Keeping

/-!
# Reaching the head of the chain

Bulk mode is left by an equality test, made where a block is put on the tip.  It has
been left above the head of the node's chain unless the store was opened above it in
bulk mode, or a reorg ended exactly there.
-/

namespace BitcoinIndexer.ChainHead

open BitcoinIndexer.Types
open BitcoinIndexer.Tables
open BitcoinIndexer.ReferenceChain
open BitcoinIndexer.Worker
open BitcoinIndexer.Store
open BitcoinIndexer.Pipeline
open BitcoinIndexer.Grounding
open BitcoinIndexer.Following
open BitcoinIndexer.Schedules
open BitcoinIndexer.Guarantees
open BitcoinIndexer.CurrentHeight
open BitcoinIndexer.Keeping
open BitcoinIndexer.Interleaving

/-- Bulk mode only up to the head of the node's chain. -/
def UpToHead (store : IndexerStore) : Prop :=
  store.mode = .normal ∨ store.chainBlockCount ≤ store.nodeChainHeadHeight

/-- What a store opened now would find is up to the head. -/
def OpensUpToHead (nodeChainHeadHeight : BlockHeight) (db : Db) : Prop :=
  indexerStateMode db = some .normal ∨ db.readDbChainBlockCount ≤ nodeChainHeadHeight

/-- The block ends a reorg at the head of the node's chain, in a bulk mode. -/
def ReorgEndsAtHead (store : IndexerStore) (block : BlockData) : Prop :=
  store.isInReorg = true ∧ store.mode ≠ .normal ∧ block.height = store.chainBlockCount ∧
    block.height = store.nodeChainHeadHeight

/-- Calls follow one that has returned; the two cases in which the test is not made are
left out. -/
def headed : Discipline Act IndexerStore Halt World WorkerEvent Call :=
  { answered with
    call := fun call c =>
      match call with
      | .start nodeChainHeadHeight _ _ => OpensUpToHead nodeChainHeadHeight c.shared.db
      | .insert block => answered.call (.insert block) c ∧ ¬ ReorgEndsAtHead c.locals block
      | .getHashByHeight height => answered.call (.getHashByHeight height) c }

def Any : (γ : Type) → Act γ → Prop := fun _ _ => True

theorem allowsQuiet_any : AllowsQuiet Any := fun _ _ _ => trivial

variable {store : IndexerStore} {block : BlockData} {w : World}

theorem UpToHead.same {after : IndexerStore} (h : UpToHead store) (hsame : Same store after) :
    UpToHead after := by
  rw [UpToHead, hsame.mode, hsame.chainBlockCount, hsame.nodeChainHeadHeight]
  exact h

/-! ## One call -/

theorem ensures_extending (h : UpToHead store) (hheight : block.height = store.chainBlockCount) :
    Ensures Any (fun _ after => UpToHead after) (insertExtending block) store := by
  apply ensures_insertExtending allowsQuiet_any.simple trivial (fun _ => trivial) trivial trivial
    (fun _ hnormal => .inl hnormal)
  intro after hafter hhead
  apply UpToHead.same _ hafter
  obtain hnormal | hle := h
  · exact .inl hnormal
  · exact .inr (Nat.succ_le_of_lt (lt_of_le_of_ne hle fun heq => hhead (hheight ▸ heq.symm)))

theorem ensures_reorg (h : UpToHead store)
    (hends : store.mode ≠ .normal → store.chainBlockCount ≠ store.nodeChainHeadHeight) :
    Ensures Any (fun _ after => UpToHead after) finishReorg store := by
  apply (ensures_finishReorg allowsQuiet_any.plain fun _ => trivial).mono
  rintro _ after ⟨hmode, hcount, hhead⟩
  by_cases hnormal : store.mode = .normal
  · exact .inl (hmode.trans hnormal)
  · have hle : store.chainBlockCount ≤ store.nodeChainHeadHeight := h.resolve_left hnormal
    apply Or.inr
    rw [hcount, hhead]
    exact Nat.succ_le_of_lt (lt_of_le_of_ne hle (hends hnormal))

theorem ensures_insert (h : UpToHead store) (hends : ¬ ReorgEndsAtHead store block) :
    Ensures Any (fun _ after => UpToHead after) (Store.insert block) store := by
  simp only [Store.insert, Prog.bind_eq, Prog.read_bind, ensures_loc]
  split_ifs with hreorg
  · apply ensures_insertWhenInReorg allowsQuiet_any.simple _ fun _ hafter => h.same hafter
    intro ready hready hheight
    apply ensures_reorg (h.same hready)
    rw [hready.mode, hready.chainBlockCount, hready.nodeChainHeadHeight]
    exact fun hmode heq => hends ⟨hreorg, hmode, hheight, hheight.trans heq⟩
  · apply ensures_insertWhenAtTip allowsQuiet_any.simple
    · intro ready hready
      apply (ensures_insertBelowTip allowsQuiet_any.simple (fun _ => trivial) trivial block).mono
      exact fun _ after hafter => (h.same hready).same hafter
    · intro ready hready hheight
      apply ensures_extending (h.same hready)
      rw [hready.chainBlockCount]
      exact hheight

theorem ensures_selfTest (h : store.chainBlockCount ≤ store.nodeChainHeadHeight) :
    Ensures Any (fun _ after => UpToHead after) selfTest store := by
  have hmode : ∀ {Q : Unit → IndexerStore → Prop} {rest : Unit → StoreM Unit} (mode : Mode)
      {first : IndexerStore}, first.chainBlockCount ≤ first.nodeChainHeadHeight →
        (∀ second, second.chainBlockCount ≤ second.nodeChainHeadHeight →
          Ensures Any Q (rest ()) second) →
        Ensures Any Q ((setModeUncodintionally mode).bind rest) first := by
    intro Q rest mode first hfirst hrest
    apply Ensures.bind _ (ensures_setModeUncodintionally allowsQuiet_any.simple mode trivial
      (fun _ => trivial) trivial trivial)
    rintro _ second ⟨-, hcount, hhead⟩
    exact hrest second (hcount ▸ hhead ▸ hfirst)
  simp only [selfTest, Prog.bind_eq, Prog.read_bind, ensures_loc]
  apply Keeps.then_ensures (.refl store) (Keeps.assertThat _ _)
  intro _ first hfirst
  apply hmode .freshBulk (hfirst.chainBlockCount ▸ hfirst.nodeChainHeadHeight ▸ h)
  intro second hsecond
  apply hmode .bulk hsecond
  intro third hthird
  apply hmode .normal hthird
  intro fourth hfourth
  apply hmode .bulk hfourth
  intro fifth hfifth
  apply (ensures_setModeUncodintionally allowsQuiet_any.simple .freshBulk trivial (fun _ => trivial)
    trivial trivial).mono
  rintro _ after ⟨-, hcount, hhead⟩
  exact .inr (hcount ▸ hhead ▸ hfifth)

/-! ## Opening -/

/-- A new process, before it has written anything but its state row. -/
def Before (holds : Db → Prop) (w : World) : Prop := w.workers = none ∧ holds w.db

theorem stable_before (holds : Db → Prop) : headed.Stable system (Before holds) := by
  intro event w _ h
  change Before holds (w.step event)
  rwa [step_none h.1]

/-- The fields of a store end up right, whatever the accesses answer. -/
theorem safe_of_ensures {α : Type} {Q : α → IndexerStore → Prop} {prog : StoreM α}
    (h : Ensures Any Q prog store) : Safe system headed (fun _ => True) (fun _ _ _ => True)
      (fun value after _ => Q value after) prog store w := by
  have hsafe : Safe system headed (fun _ => True) (fun _ _ _ => True)
      (fun value after _ => Q value after ∧ True) prog store w :=
    h.safe (fun _ _ _ h => h) (fun _ h => h) (fun _ _ _ _ => trivial) (fun _ _ _ _ h => h) trivial
  exact hsafe.mono fun _ _ _ hafter => hafter.1

theorem safe_readIndexerState {nodeChainHeadHeight : BlockHeight}
    (h : Before (OpensUpToHead nodeChainHeadHeight) w) :
    Safe system headed (fun _ => True) (fun _ _ _ => True)
      (fun mode after w' => after = store ∧
        Before (fun db => mode = .normal ∨ db.readDbChainBlockCount ≤ nodeChainHeadHeight) w')
      readIndexerState store w := by
  simp only [readIndexerState, Prog.bind_eq, Prog.perform_bind]
  apply Safe.act (stable_before _) (fun _ _ => trivial) _ h
  intro ready hready fails _
  cases fails with
  | true => trivial
  | false =>
      simp only [system, systemOf_exec, exec, execSelect]
      cases hmode : indexerStateMode ready.db with
      | some mode =>
          have hopens := hready.2
          rw [OpensUpToHead, hmode, Option.some.injEq] at hopens
          exact ⟨rfl, hready.1, hopens⟩
      | none =>
          have hcount : ready.db.readDbChainBlockCount ≤ nodeChainHeadHeight := by
            obtain hnormal | hle := hready.2
            · rw [hmode] at hnormal
              exact absurd hnormal (by simp)
            · exact hle
          have hbefore : Before (fun db => db.readDbChainBlockCount ≤ nodeChainHeadHeight) ready :=
            ⟨hready.1, hcount⟩
          apply Safe.act (stable_before _) (fun _ _ => trivial) _ hbefore
          intro written hwritten fails _
          cases fails with
          | true => trivial
          | false => exact ⟨rfl, hwritten.1, .inr hwritten.2⟩

theorem safe_new {nodeChainHeadHeight : BlockHeight} {network : Network}
    (h : Before (OpensUpToHead nodeChainHeadHeight) w) :
    Safe system headed (fun _ => True) (fun _ _ _ => True) (fun _ after _ => UpToHead after)
      (new nodeChainHeadHeight network) store w := by
  simp only [new, Prog.bind_eq, Prog.perform_bind, Prog.modify_bind, Prog.read_bind]
  apply Safe.act (stable_before _) (fun _ _ => trivial) _ h
  intro created hcreated fails _
  cases fails with
  | true => trivial
  | false =>
      have hkept : Before (OpensUpToHead nodeChainHeadHeight) (created.publish created.db) :=
        hcreated
      apply Safe.bind _ (safe_readIndexerState hkept)
      rintro mode _ read ⟨rfl, hread⟩
      apply Safe.act (stable_before _) (fun _ _ => trivial) _ hread
      intro counted hcounted fails _
      cases fails with
      | true => trivial
      | false =>
          change Safe _ _ _ _ _ (Prog.act _ _) _ counted
          apply safe_of_ensures
          refine ⟨trivial, fun chainCurrentBlockCount => ?_⟩
          apply Keeps.then_ensures (.refl _) (Keeps.assertThat _ _)
          intro _ first _
          rw [ensures_loc]
          have hopened : UpToHead (.opened mode network nodeChainHeadHeight
              counted.db.readDbChainBlockCount) := hcounted.2
          apply Ensures.bind (Q := fun _ after => UpToHead after)
          · intro _ tested htested
            rw [ensures_loc]
            apply Keeps.then_ensures (.refl tested) (Keeps.quiet allowsQuiet_any (by trivial))
            intro _ ready hready
            apply (ensures_startWorkers (B := Any) fun _ => trivial).mono
            exact fun _ after hafter => htested.same (hready.trans hafter)
          · by_cases hmode : mode = .freshBulk
            · rw [decide_eq_true hmode, whenever_true]
              apply ensures_selfTest
              obtain hnormal | hle := hopened
              · exact absurd (hmode.symm.trans hnormal) (by simp)
              · exact hle
            · rw [decide_eq_false hmode, whenever_false]
              exact hopened

/-! ## Runs -/

theorem safe_call {call : Call} {c : StoreConfig} (hcall : headed.call call c)
    (hsafe : SafeConfig system headed (fun _ => True) (fun _ _ _ => True)
      (fun store _ => UpToHead store) c) :
    Safe system headed (fun _ => True) (fun _ _ _ => True) (fun _ after _ => UpToHead after)
      (system.body call) c.locals (system.enter call c.shared) := by
  cases call with
  | start nodeChainHeadHeight network resume =>
      apply safe_new
      have hdb : (restart resume c.shared).db.block = c.shared.db.block ∧
          (restart resume c.shared).db.bulkMode = c.shared.db.bulkMode := by
        cases htxn : c.shared.txn <;> simp [restart, abort, htxn, Db.rollback]
      refine ⟨rfl, ?_⟩
      change OpensUpToHead nodeChainHeadHeight (restart resume c.shared).db
      rw [OpensUpToHead, indexerStateMode, Db.readDbChainBlockCount, hdb.1, hdb.2]
      exact hcall
  | insert block =>
      rw [SafeConfig, hcall.1] at hsafe
      exact safe_of_ensures (ensures_insert hsafe hcall.2)
  | getHashByHeight height =>
      rw [SafeConfig, show c.prog = .pure () from hcall] at hsafe
      apply safe_of_ensures
      apply Ensures.bind _ (ensures_getHashByHeight allowsQuiet_any.simple (fun _ => trivial) trivial height)
      exact fun _ after hafter => UpToHead.same hsafe hafter

/-- Where every opening and every reorg keeps below the head or in normal mode, a call
that has returned leaves the store in normal mode above the head. -/
theorem normal_above_head (labels : List StoreLabel)
    (hfollows : headed.follows system labels initial) :
    let c := system.run labels initial
    c.prog = .pure () → c.locals.nodeChainHeadHeight < c.locals.chainBlockCount →
      c.locals.mode = .normal := by
  intro c hreturned habove
  have hsafe : SafeConfig system headed (fun _ => True) (fun _ _ _ => True)
      (fun store _ => UpToHead store) c := by
    apply SafeConfig.run (fun _ _ _ _ h => h) (fun _ _ _ _ _ h => h) labels initial
      (fun _ _ _ hcall hsafe => safe_call hcall hsafe) hfollows
    trivial
  rw [SafeConfig, hreturned] at hsafe
  obtain hnormal | hle := hsafe
  · exact hnormal
  · exact absurd hle (not_le.2 habove)

/-! ## A reorg below the head and one that ends there -/

instance (nodeChainHeadHeight : BlockHeight) (db : Db) :
    Decidable (OpensUpToHead nodeChainHeadHeight db) := by
  unfold OpensUpToHead
  infer_instance

instance (store : IndexerStore) (block : BlockData) : Decidable (ReorgEndsAtHead store block) := by
  unfold ReorgEndsAtHead
  infer_instance

def checkHeaded : StoreLabel → StoreConfig → Bool
  | .call (.start nodeChainHeadHeight _ _), c => decide (OpensUpToHead nodeChainHeadHeight c.shared.db)
  | .call (.insert block), c => returned c.prog && !decide (ReorgEndsAtHead c.locals block)
  | .call (.getHashByHeight _), c => returned c.prog
  | _, _ => true

theorem headed_of_check (label : StoreLabel) (c : StoreConfig) (h : checkHeaded label c = true) :
    headed.admits label c := by
  cases label with
  | step fails => exact fun _ _ _ => trivial
  | other event => trivial
  | call call =>
      cases call with
      | start nodeChainHeadHeight network resume =>
          have hopens : OpensUpToHead nodeChainHeadHeight c.shared.db := of_decide_eq_true h
          exact hopens
      | getHashByHeight height => exact eq_pure_of_returned h
      | insert block =>
          rw [checkHeaded, Bool.and_eq_true, Bool.not_eq_true', decide_eq_false_iff_not] at h
          exact ⟨eq_pure_of_returned h.1, h.2⟩

/-- The head comes one block after the end of the reorg. -/
theorem below_head_switches :
    (system.run (overtaking 3 13) initial).locals.chainBlockCount = 4 ∧
      (system.run (overtaking 3 13) initial).locals.mode = .normal := by
  have hfollows : headed.follows system (overtaking 3 13) initial :=
    follows_of_checkRun headed_of_check (overtaking 3 13) initial (by decide +kernel)
  have hreturned : (system.run (overtaking 3 13) initial).prog = .pure () :=
    eq_pure_of_returned (by decide +kernel)
  have hcount : (system.run (overtaking 3 13) initial).locals.chainBlockCount = 4 := by
    decide +kernel
  have habove : (system.run (overtaking 3 13) initial).locals.nodeChainHeadHeight <
      (system.run (overtaking 3 13) initial).locals.chainBlockCount := by
    decide +kernel
  exact ⟨hcount, normal_above_head (overtaking 3 13) hfollows hreturned habove⟩

/-- The reorg ends with the head of the node's chain: the store stays in bulk mode, also
for the next block. -/
theorem reorg_at_head_stays_in_bulk :
    ¬ ∀ (given : Set BlockData) (injective : Set.InjOn BlockData.hashId given) (network : Network)
      (labels : List StoreLabel),
        (prefetched (unrestricted given injective network)).follows system labels initial →
          let c := system.run labels initial
          c.prog = .pure () → c.locals.isInReorg = false →
            c.locals.nodeChainHeadHeight < c.locals.chainBlockCount → c.locals.mode = .normal := by
  intro h
  have hfollows : (prefetched (unrestricted {block | block ∈ overtaken 13} (overtaken_injective 13)
      .bitcoin)).follows system (overtaking 2 13) initial :=
    follows_of_check (overtaking 2 13) initial (by decide +kernel)
  have hreturned : (system.run (overtaking 2 13) initial).prog = .pure () :=
    eq_pure_of_returned (by decide +kernel)
  have hnormal := h {block | block ∈ overtaken 13} (overtaken_injective 13) .bitcoin
    (overtaking 2 13) hfollows hreturned (by decide +kernel) (by decide +kernel)
  have hbulk : (system.run (overtaking 2 13) initial).locals.mode = .freshBulk := by
    decide +kernel
  rw [hbulk] at hnormal
  exact absurd hnormal (by decide)

end BitcoinIndexer.ChainHead
