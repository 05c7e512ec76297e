import BitcoinIndexer.Chain.Calls

/-!
# Opening the store

A new process finds a committed state that shows a tree, with no workers on it.  The
self test, which drops the tables, runs only where nothing has been stored.  The last
section puts the calls together: in every run the remaining program is safe.
-/

namespace BitcoinIndexer.Opening

open BitcoinIndexer.Types
open BitcoinIndexer.Tables
open BitcoinIndexer.ReferenceChain
open BitcoinIndexer.Worker
open BitcoinIndexer.Store
open BitcoinIndexer.Pipeline
open BitcoinIndexer.ChainState
open BitcoinIndexer.Grounding
open BitcoinIndexer.Following
open BitcoinIndexer.Reorg
open BitcoinIndexer.Calls
open BitcoinIndexer.Interleaving

variable {S : Setting} {α : Type} {w : World} {store : IndexerStore} {t : BlockTree}
variable {Q : α → IndexerStore → World → Prop}

/-- A process that has not yet started workers. -/
structure Fresh (S : Setting) (t : BlockTree) (w : World) : Prop extends Settled S t w where
  stopped : w.workers = none
  inFlight : w.inFlight = ∅
  handed : w.handed = []
  committed_nil : w.committed = []
  failed : w.failed = []
  fed_initial : w.fed <+: idents t.chain

theorem Fresh.resting (h : Fresh S t w) : Resting S w := ⟨h.stopped, t, h.toSettled⟩

theorem Fresh.pipeInv (h : Fresh S t w) : PipeInv [] w := by
  constructor <;>
    simp [live, held, acking, unacked, flight, h.stopped, h.inFlight, h.handed, h.committed_nil,
      h.failed]

theorem Fresh.publish (h : Fresh S t w) {db : Db} (hcommitted : S.Committed t db) :
    Fresh S t (w.publish db) where
  toSettled := h.toSettled.publish hcommitted le_rfl
  stopped := h.stopped
  inFlight := h.inFlight
  handed := h.handed
  committed_nil := h.committed_nil
  failed := h.failed
  fed_initial := h.fed_initial

theorem Fresh.at_view (h : Fresh S t w) (hready : w.db.bulkMode ≠ none) :
    (view S (idents t.chain) w.fed).At [] [] w := by
  have hflight : flightBlocks w = [] := by simp [flightBlocks, flight, h.handed]
  exact ⟨h.pipeInv, t,
    { toSettled := h.toSettled
      ready := hready
      extends_chain := by simp [hflight]
      given := by simp [hflight]
      stored := by simp [h.committed_nil]
      line_eq := by simp [hflight]
      fed_eq := rfl
      network := by simp [h.stopped]
      blameless := by simp [Blameless, h.stopped] }⟩

theorem safe_query_ok {select : Db → α} {β : Type} {R : β → IndexerStore → World → Prop}
    {next : α → StoreM β} (h : Resting S w)
    (hnext : SafeIn S R (next (select w.db)) store w) :
    SafeIn S R (.act (.query fun db => .ok (select db)) next) store w :=
  safe_query h rfl hnext

/-- A statement while there are no workers. -/
theorem safe_statement {statement : Db → Except SqlError Db} {next : Unit → StoreM α}
    (h : Resting S w) (herror : ∀ error, statement w.db = .error error → S.tolerates error)
    (hnext : ∀ db, statement w.db = .ok db → SafeIn S Q (next ()) store (w.publish db)) :
    SafeIn S Q (.act (.execute statement) next) store w := by
  apply safe_alone h
  intro fails
  cases fails with
  | true => exact ⟨.inl h, .err _ S.failed⟩
  | false =>
      cases hresult : statement w.db with
      | error error =>
          simp only [exec, execStatement, hresult]
          exact ⟨.inl h, .err error (herror error hresult)⟩
      | ok db =>
          simp only [exec, execStatement, hresult]
          exact hnext db hresult

/-! ## The self test -/

/-- Nothing has been stored. -/
structure Vacant (S : Setting) (w : World) : Prop where
  fresh : ∃ t, Fresh S t w ∧ t.known = []
  ready : w.db.bulkMode ≠ none

theorem chain_of_known (h : t.known = []) : t.chain = [] := by
  apply List.eq_nil_iff_forall_not_mem.2
  intro block hmem
  have hknown := t.stored block hmem
  rw [h] at hknown
  simp at hknown

theorem Vacant.publish (h : Vacant S w) {db : Db} (hready : db.bulkMode ≠ none)
    (hcommitted : ∀ t, t.known = [] → S.Committed t w.db →
      ∃ t', t'.known = [] ∧ S.Committed t' db) : Vacant S (w.publish db) := by
  obtain ⟨t, hfresh, hknown⟩ := h.fresh
  obtain ⟨t', hknown', hcommitted⟩ := hcommitted t hknown hfresh.committed
  have hchain := chain_of_known hknown
  have hchain' := chain_of_known hknown'
  exact ⟨⟨t',
    { toSettled := hfresh.toSettled.publish hcommitted (by rw [hchain, hchain'])
      stopped := hfresh.stopped
      inFlight := hfresh.inFlight
      handed := hfresh.handed
      committed_nil := hfresh.committed_nil
      failed := hfresh.failed
      fed_initial := by
        have hfed := hfresh.fed_initial
        rw [hchain] at hfed
        rw [hchain']
        exact hfed }, hknown'⟩, hready⟩

/-- Changing the schema keeps what is stored; to start afresh nothing may be stored. -/
theorem setSchema_committed {db after : Db} {mode : Mode} (h : S.Committed t db)
    (hresult : db.setSchema mode = .ok after) (hmode : mode = .freshBulk → t.known = []) :
    ∃ t', S.Committed t' after ∧ after.bulkMode = db.bulkMode ∧
      (t' = t ∨ t.known = [] ∧ t'.known = []) := by
  cases mode with
  | freshBulk =>
      obtain rfl := Except.ok.inj hresult
      exact ⟨.empty, .fresh _, rfl, .inr ⟨hmode rfl, rfl⟩⟩
  | bulk =>
      by_cases hkeys : keysUnique .bulk db
      · obtain rfl : { db with schema := .bulk } = after := by
          simpa [Db.setSchema, hkeys] using hresult
        exact ⟨t, .schema .bulk h hkeys, rfl, .inl rfl⟩
      · simp [Db.setSchema, hkeys] at hresult
  | normal =>
      by_cases hkeys : keysUnique .normal db
      · obtain rfl : { db with schema := .normal } = after := by
          simpa [Db.setSchema, hkeys] using hresult
        exact ⟨t, .schema .normal h hkeys, rfl, .inl rfl⟩
      · simp [Db.setSchema, hkeys] at hresult

/-- Without workers there is nothing to flush. -/
theorem safe_flush_stopped {next : Unit → StoreM α} (h : Resting S w)
    (hnext : SafeIn S Q (next ()) store w) :
    SafeIn S Q (flushWorkers.bind next) store w := by
  simp only [flushWorkers, Prog.bind_eq, Prog.perform_bind, Prog.act_bind]
  apply safe_alone h
  intro fails
  simp only [exec, h.1, Option.any_none, Bool.not_false, if_true, Prog.pure_eq, Prog.pure_bind]
  exact hnext

theorem safe_setMode_vacant (h : Vacant S w) (mode : Mode) :
    SafeIn S (fun _ store' w' => store' = { store with mode := mode } ∧ Vacant S w')
      (setModeUncodintionally mode) store w := by
  obtain ⟨t, hfresh, hknown⟩ := h.fresh
  simp only [setModeUncodintionally, Prog.bind_eq, Prog.modify_bind, Prog.perform_bind, SafeIn,
    safe_loc]
  apply safe_flush_stopped hfresh.resting
  apply safe_statement hfresh.resting
  · exact fun error herror => S.schema hfresh.committed herror
  · intro db hresult
    obtain ⟨t', hcommitted, hbulk, hsame⟩ :=
      setSchema_committed hfresh.committed hresult fun _ => hknown
    have hvacant : Vacant S (w.publish db) := by
      apply h.publish (hbulk ▸ h.ready)
      intro u hu hcommitted'
      exact ⟨t', hsame.elim (fun heq => heq ▸ hknown) (·.2), hcommitted⟩
    obtain ⟨u, hfresh', hknown'⟩ := hvacant.fresh
    apply safe_statement hfresh'.resting
    · simp [updateBulkMode]
    · intro after hresult
      obtain ⟨bulk, hbulk⟩ := Option.ne_none_iff_exists'.1 hvacant.ready
      obtain rfl : { (w.publish db).db with bulkMode := some mode.isBulk } = after := by
        simpa [updateBulkMode, hbulk] using hresult
      exact ⟨rfl, hvacant.publish (Option.some_ne_none _) fun t hknown hcommitted =>
        ⟨t, hknown, .bulkMode _ hcommitted⟩⟩

theorem safe_selfTest (h : Vacant S w) (hmode : store.mode = .freshBulk) :
    SafeIn S (fun _ store' w' => store' = store ∧ Vacant S w') selfTest store w := by
  have hsame : ({ store with mode := .freshBulk } : IndexerStore) = store := by rw [← hmode]
  simp only [selfTest, Prog.bind_eq, Prog.read_bind, hmode, decide_true, assertThat_true,
    Prog.pure_bind, SafeIn, safe_loc]
  apply Safe.bind _ (safe_setMode_vacant h .freshBulk)
  rintro _ _ _ ⟨rfl, h⟩
  apply Safe.bind _ (safe_setMode_vacant h .bulk)
  rintro _ _ _ ⟨rfl, h⟩
  apply Safe.bind _ (safe_setMode_vacant h .normal)
  rintro _ _ _ ⟨rfl, h⟩
  apply Safe.bind _ (safe_setMode_vacant h .bulk)
  rintro _ _ _ ⟨rfl, h⟩
  apply Safe.mono _ (safe_setMode_vacant h .freshBulk)
  rintro _ _ w' ⟨rfl, h⟩
  exact ⟨hsame, h⟩

/-! ## A new process -/

/-- Whatever the old process was doing, the new one starts from a state that shows a
tree, and its caller knows the beginning of the chain. -/
theorem fresh_restart (hsettled : Settled S t w) (resume : ℕ) : Fresh S t (restart resume w) := by
  have habort : Settled S t (abort w) := by
    cases htxn : w.txn with
    | none => simpa [abort, htxn] using hsettled
    | some transaction =>
        have hburnt := hsettled.committed.burn transaction
        simpa [abort, htxn] using (⟨hburnt, hsettled.highest⟩ : Settled S t
          { w with db := w.db.rollback transaction, txn := none })
  exact
    { committed := habort.committed
      highest := habort.highest
      stopped := rfl
      inFlight := rfl
      handed := rfl
      committed_nil := rfl
      failed := rfl
      fed_initial := by
        change w.db.chain.take resume <+: idents t.chain
        rw [hsettled.committed.chain_eq]
        exact List.take_prefix _ _ }

/-- What the state row says, and that the fresh bulk mode finds nothing stored. -/
theorem safe_readIndexerState {next : Mode → StoreM α} (h : Fresh S t w)
    (hnext : ∀ mode w, Fresh S t w → w.db.bulkMode ≠ none → (mode = .freshBulk → t.known = []) →
      SafeIn S Q (next mode) store w) :
    SafeIn S Q (readIndexerState.bind next) store w := by
  simp only [readIndexerState, Prog.bind_eq, Prog.perform_bind, Prog.act_bind]
  apply safe_query_ok h.resting
  cases hbulk : w.db.bulkMode with
  | none =>
      simp only [indexerStateMode, hbulk, Option.map_none, Prog.act_bind, Prog.pure_eq,
        Prog.pure_bind]
      apply safe_statement h.resting (by simp [insertBulkMode])
      intro db hresult
      obtain rfl := Except.ok.inj hresult
      exact hnext _ _ (h.publish (.bulkMode true h.committed)) (Option.some_ne_none _)
        fun _ => h.committed.unready hbulk
  | some bulk =>
      simp only [indexerStateMode, hbulk, Option.map_some, Prog.pure_eq, Prog.pure_bind]
      apply hnext _ _ h (by simp [hbulk])
      intro hmode
      cases bulk with
      | false => simp at hmode
      | true =>
          by_cases hempty : w.db.block.length = 0
          · rw [h.committed.shows.rows, List.length_map] at hempty
            exact List.eq_nil_of_length_eq_zero hempty
          · simp [hempty] at hmode

/-- The store opens at the tip of the committed chain. -/
theorem safe_new {network : Network} (h : Fresh S t w) (hnetwork : network = S.network)
    (nodeChainHeadHeight : BlockHeight) :
    SafeIn S (fun _ => AtTip S (idents t.chain)) (new nodeChainHeadHeight network) store w := by
  simp only [new, Prog.bind_eq, Prog.perform_bind]
  apply safe_statement h.resting (by simp)
  rintro db hresult
  obtain rfl := Except.ok.inj hresult
  have h : Fresh S t (w.publish w.db) := h.publish h.committed
  apply safe_readIndexerState h
  intro mode w h hready hvacant
  apply safe_query_ok h.resting
  apply safe_query_ok h.resting
  have hcount := h.committed.readDbChainBlockCount
  have hcurrent := h.committed.readDbChainCurrentBlockCount
  simp only [hcount, hcurrent, decide_true, assertThat_true, Prog.pure_bind, Prog.modify_bind,
    SafeIn, safe_loc]
  -- the self test leaves nothing behind, so the count read before it is still right
  have htest : SafeIn S (fun _ store' w' =>
      store' = .opened mode network nodeChainHeadHeight t.chain.length ∧
        w'.db.bulkMode ≠ none ∧ ∃ u, Fresh S u w' ∧ u.chain = t.chain ∧
          (mode = .freshBulk → u.known = []))
      (whenever (decide (mode = .freshBulk)) selfTest)
      (.opened mode network nodeChainHeadHeight t.chain.length) w := by
    by_cases hmode : mode = .freshBulk
    · rw [decide_eq_true hmode, whenever_true]
      apply Safe.mono _ (safe_selfTest ⟨⟨t, h, hvacant hmode⟩, hready⟩ hmode)
      rintro _ _ w' ⟨rfl, ⟨u, hfresh, hknown⟩, hready⟩
      refine ⟨rfl, hready, u, hfresh, ?_, fun _ => hknown⟩
      rw [chain_of_known hknown, chain_of_known (hvacant hmode)]
    · rw [decide_eq_false hmode, whenever_false]
      exact ⟨rfl, hready, t, h, rfl, fun heq => absurd heq hmode⟩
  apply Safe.bind _ htest
  rintro _ _ w' ⟨rfl, hready, u, h, hsame, hvacant⟩
  simp only [Prog.read_bind, safe_loc]
  apply safe_statement h.resting
  · exact fun error herror => S.schema h.committed herror
  · intro db hresult
    obtain ⟨v, hcommitted, hbulk, hcases⟩ := setSchema_committed h.committed hresult hvacant
    have hchain : v.chain = u.chain := by
      obtain rfl | ⟨hu, hv⟩ := hcases
      · rfl
      · rw [chain_of_known hu, chain_of_known hv]
    have hfresh : Fresh S v (w'.publish db) :=
      { toSettled := h.toSettled.publish hcommitted (by rw [hchain])
        stopped := h.stopped
        inFlight := h.inFlight
        handed := h.handed
        committed_nil := h.committed_nil
        failed := h.failed
        fed_initial := by
          rw [hchain]
          exact h.fed_initial }
    have hours : (IndexerStore.opened mode network nodeChainHeadHeight t.chain.length).network =
      S.network := hnetwork
    apply Safe.mono _ ((view S (idents v.chain) w'.fed).safe_startWorkers
      (hfresh.at_view (hbulk ▸ hready)) hfresh.stopped hours)
    rintro _ _ final ⟨rfl, hat, hrun, -⟩
    have hfed : final.fed = w'.fed := by
      obtain ⟨-, _, hfinal⟩ := hat
      exact hfinal.fed_eq
    rw [← hsame, ← hchain]
    refine ⟨rfl, hnetwork, ?_, hrun, ?_, ?_⟩
    · rw [hfed]
      exact hat
    · rw [hfed]
      exact hfresh.fed_initial
    · rw [length_idents, hchain, hsame]
      rfl

/-! ## Runs -/

theorem safe_call {call : Call} {c : Config Act IndexerStore Halt World}
    (hcall : (prefetched S).call call c)
    (hsafe : SafeConfig system (prefetched S) (Kept S) (Ends S) (Idle S) c) :
    SafeIn S (fun _ => Idle S) (body call) c.locals (enter call c.shared) := by
  have hidle : c.prog = .pure () → Idle S c.locals c.shared := by
    intro hreturned
    rw [SafeConfig, hreturned] at hsafe
    exact hsafe
  cases call with
  | start nodeChainHeadHeight network resume =>
      have hkept : Kept S c.shared :=
        hsafe.always (fun _ _ h => h.kept) (fun _ _ _ h => h.1)
      obtain ⟨t, hsettled⟩ := hkept.settled
      have hfresh := fresh_restart hsettled resume
      exact (safe_new hfresh hcall nodeChainHeadHeight).mono fun _ _ _ hpost => hpost.idle
  | insert block =>
      obtain ⟨hreturned, hfeeds, hgiven, hadmits⟩ := hcall
      exact safe_insert (hidle hreturned) hfeeds hgiven hadmits
  | getHashByHeight height =>
      simp only [body, Prog.bind_eq]
      apply Safe.bind _ (safe_getHashByHeight (hidle hcall) height)
      exact fun _ _ _ hpost => hpost

theorem kept_initial (S : Setting) : Kept S World.initial :=
  .inl ⟨rfl, .empty, .fresh none, rfl⟩

/-- In every run, what the store still has to do is safe. -/
theorem safe_run (S : Setting) (labels : List (Label WorkerEvent Call))
    (hfollows : (prefetched S).follows system labels initial) :
    SafeConfig system (prefetched S) (Kept S) (Ends S) (Idle S) (system.run labels initial) := by
  apply SafeConfig.run (fun _ _ _ hevent h => h.step hevent) stable_ends labels initial
    (fun _ _ _ hcall hsafe => safe_call hcall hsafe) hfollows
  exact ⟨kept_initial S, .stopped⟩

theorem kept_run (S : Setting) (labels : List (Label WorkerEvent Call))
    (hfollows : (prefetched S).follows system labels initial) :
    Kept S (system.run labels initial).shared :=
  (safe_run S labels hfollows).always (fun _ _ h => h.kept) (fun _ _ _ h => h.1)

end BitcoinIndexer.Opening
