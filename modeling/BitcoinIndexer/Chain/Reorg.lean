import BitcoinIndexer.Chain.Replacement

/-!
# Finishing a reorg

The transaction of `finish_reorg` runs while there are no workers, so that nobody
interferes with it: its accesses follow each other like those of a sequential program.
-/

namespace BitcoinIndexer.Reorg

open BitcoinIndexer.Types
open BitcoinIndexer.Tables
open BitcoinIndexer.Formatter
open BitcoinIndexer.UtxoCache
open BitcoinIndexer.ReferenceChain
open BitcoinIndexer.Representation
open BitcoinIndexer.Execution
open BitcoinIndexer.Worker
open BitcoinIndexer.Store
open BitcoinIndexer.Pipeline
open BitcoinIndexer.ChainState
open BitcoinIndexer.Grounding
open BitcoinIndexer.Following
open BitcoinIndexer.Replacement
open BitcoinIndexer.Interleaving

variable {S : Setting} {α β : Type} {w : World} {store : IndexerStore} {t : BlockTree}

abbrev SafeIn (S : Setting) {α : Type} (Q : α → IndexerStore → World → Prop) (prog : StoreM α)
    (store : IndexerStore) (w : World) : Prop :=
  Safe system (prefetched S) (Kept S) (Ends S) Q prog store w

/-! ## Programs without interference -/

/-- Without workers the state an access meets is the one the last access left. -/
theorem safe_alone {access : Act β} {next : β → StoreM α} {Q : α → IndexerStore → World → Prop}
    (h : Resting S w)
    (heffect : ∀ fails, match exec access fails w with
      | .blocked => True
      | .done value after => SafeIn S Q (next value) store after
      | .halted reason after => Ends S reason store after) :
    SafeIn S Q (.act access next) store w := by
  have hstill : (prefetched S).Stable system fun later => later = w := by
    rintro event later _ rfl
    exact step_none h.1 event
  apply Safe.act_still hstill (.inl h)
  intro fails _
  have heffect := heffect fails
  simp only [system, systemOf_exec]
  cases hexec : exec access fails w with
  | blocked => trivial
  | _ =>
      rw [hexec] at heffect
      exact heffect

def inTxn (transaction : Db) (w : World) : World := { w with txn := some transaction }

theorem resting_inTxn (h : Resting S w) (transaction : Db) : Resting S (inTxn transaction w) :=
  ⟨h.1, h.2.imp fun _ hsettled => ⟨hsettled.committed, hsettled.highest⟩⟩

theorem resting_abort (h : Resting S w) (transaction : Db) :
    Resting S (abort (inTxn transaction w)) :=
  ⟨h.1, h.2.imp fun _ hsettled => ⟨.burn transaction hsettled.committed, hsettled.highest⟩⟩

theorem ends_abort (h : Resting S w) (transaction : Db) {error : SqlError}
    (htolerated : S.tolerates error) :
    Ends S (.err error) store (abort (inTxn transaction w)) :=
  ⟨.inl (resting_abort h transaction), .err error htolerated⟩

theorem safe_begin {next : Unit → StoreM α} {Q : α → IndexerStore → World → Prop}
    (h : Resting S w) (hnext : SafeIn S Q (next ()) store (inTxn w.db w)) :
    SafeIn S Q (.act .begin next) store w := by
  apply safe_alone h
  intro fails
  cases fails with
  | true => exact ⟨.inl h, .err _ S.failed⟩
  | false => exact hnext

theorem safe_transQuery {select : Db → β} {next : β → StoreM α}
    {Q : α → IndexerStore → World → Prop} {transaction : Db} (h : Resting S w)
    (hnext : SafeIn S Q (next (select transaction)) store (inTxn transaction w)) :
    SafeIn S Q (.act (.transQuery fun db => .ok (select db)) next) store
      (inTxn transaction w) := by
  apply safe_alone (resting_inTxn h transaction)
  intro fails
  cases fails with
  | true => exact ends_abort h transaction S.failed
  | false => exact hnext

theorem safe_transExecute {statement : Db → Except SqlError Db} {next : Unit → StoreM α}
    {Q : α → IndexerStore → World → Prop} {transaction : Db} (h : Resting S w)
    (herror : ∀ error, statement transaction = .error error → S.tolerates error)
    (hnext : ∀ after, statement transaction = .ok after →
      SafeIn S Q (next ()) store (inTxn after w)) :
    SafeIn S Q (.act (.transExecute statement) next) store (inTxn transaction w) := by
  apply safe_alone (resting_inTxn h transaction)
  intro fails
  cases fails with
  | true => exact ends_abort h transaction S.failed
  | false =>
      cases hstatement : statement transaction with
      | error error =>
          simp only [exec, inTxn, execTrans, hstatement]
          exact ends_abort h transaction (herror error hstatement)
      | ok after =>
          simp only [exec, inTxn, execTrans, hstatement]
          exact hnext after hstatement

/-! ## The first different height -/

/-- The two parts of a stored hash join. -/
def Joins (db : Db) : Prop :=
  ∀ height parts, (db.blocksAtHeight height).head? = some parts →
    ∃ hash, hashIdAndRestToHash parts.1 parts.2 = some hash

theorem Settled.joins (h : Settled S t w) : Joins w.db := by
  intro height parts hparts
  rw [h.committed.shows.blocksAtHeight t.nodup_known t.linked t.stored] at hparts
  cases hget : t.chain[height]? with
  | none => simp [hget] at hparts
  | some block =>
      obtain rfl : (block.hashId, hashRest block.id) = parts := by simpa [hget] using hparts
      exact ⟨block.id, hashIdAndRestToHash_parts block.id⟩

theorem safe_readTrans {transaction : Db} (h : Resting S w) (hjoins : Joins transaction)
    (height : BlockHeight) :
    SafeIn S (fun value store' w' => value = hashAtHeight transaction height ∧ store' = store ∧
        w' = inTxn transaction w)
      (readDbBlockHashByHeightTrans height) store (inTxn transaction w) := by
  simp only [readDbBlockHashByHeightTrans, Prog.bind_eq, Prog.perform_bind]
  apply safe_transQuery h
  cases hhead : (transaction.blocksAtHeight height).head? with
  | none => exact ⟨by simp [hashAtHeight, hhead], rfl, rfl⟩
  | some parts =>
      obtain ⟨hash, hjoin⟩ := hjoins height parts hhead
      simp only [joinHash, hjoin, Prog.pure_eq, safe_pure]
      exact ⟨by simp [hashAtHeight, hhead, hjoin], trivial, trivial⟩

theorem safe_firstDifferentHeight {transaction : Db} (h : Resting S w)
    (hjoins : Joins transaction) (pending : List (BlockHeight × BlockData)) :
    SafeIn S (fun value store' w' => value = firstDifferent transaction pending ∧
        store' = store ∧ w' = inTxn transaction w)
      (firstDifferentHeight pending) store (inTxn transaction w) := by
  induction pending with
  | nil => exact ⟨rfl, rfl, rfl⟩
  | cons entry pending ih =>
      obtain ⟨height, block⟩ := entry
      rw [firstDifferentHeight, Prog.bind_eq]
      apply Safe.bind _ (safe_readTrans h hjoins height)
      rintro value _ _ ⟨rfl, rfl, rfl⟩
      cases hhash : hashAtHeight transaction height with
      | none =>
          apply Safe.mono _ ih
          rintro value store' w' ⟨rfl, hrest⟩
          exact ⟨by simp [firstDifferent, hhash], hrest⟩
      | some hash =>
          by_cases hsame : hash = block.id
          · simp only [hsame, ne_eq, not_true, if_false]
            apply Safe.mono _ ih
            rintro value store' w' ⟨rfl, hrest⟩
            exact ⟨by simp [firstDifferent, hhash, hsame], hrest⟩
          · simp only [ne_eq, hsame, not_false_iff, if_true, Prog.pure_eq, safe_pure]
            exact ⟨by simp [firstDifferent, hhash, hsame], trivial, trivial⟩

/-! ## Reviving and collecting -/

def collectAll (blocks : List BlockData) (store : IndexerStore) : IndexerStore :=
  blocks.foldl (fun store block => store.collect block) store

@[simp]
theorem collectAll_batch (blocks : List BlockData) (store : IndexerStore) :
    (collectAll blocks store).batch = store.batch ++ blocks := by
  induction blocks generalizing store with
  | nil => simp [collectAll]
  | cons block blocks ih =>
      rw [collectAll, List.foldl_cons, ← collectAll, ih]
      simp [IndexerStore.collect]

/-- Collecting touches the batch only. -/
theorem collectAll_frame (blocks : List BlockData) (store : IndexerStore) :
    (collectAll blocks store).mode = store.mode ∧
      (collectAll blocks store).network = store.network ∧
      (collectAll blocks store).nodeChainHeadHeight = store.nodeChainHeadHeight ∧
      (collectAll blocks store).chainBlockCount = store.chainBlockCount ∧
      (collectAll blocks store).pendingReorg = store.pendingReorg := by
  induction blocks generalizing store with
  | nil => exact ⟨rfl, rfl, rfl, rfl, rfl⟩
  | cons block blocks ih => exact ih (store.collect block)

section Loop

variable {Q : Unit → IndexerStore → World → Prop} {transaction : Db}

/-- Blocks that are not stored join the batch. -/
theorem safe_collect (h : Resting S w) {new : List BlockData} {chain : List BlockHash}
    (hextends : Extends chain new)
    (hunknown : ∀ block ∈ new, transaction.readDbBlockExtinctByHashId block.hashId = none)
    {prevHeight : Option BlockHeight} (hprev : ∀ prev, prevHeight = some prev →
      prev + 1 = chain.length) :
    SafeIn S (fun _ store' w' => store' = collectAll new store ∧ w' = inTxn transaction w)
      (reviveOrCollect (byHeight new) prevHeight) store (inTxn transaction w) := by
  induction new generalizing chain prevHeight store with
  | nil => exact ⟨rfl, rfl⟩
  | cons block new ih =>
      have hheight : block.height = chain.length := hextends.1.1
      have hcontiguous : prevHeight.all (fun prev => prev + 1 = block.height) = true := by
        cases hcase : prevHeight with
        | none => rfl
        | some prev => simpa [hheight] using hprev prev hcase
      simp only [byHeight, List.map_cons, reviveOrCollect, hcontiguous, assertThat_true,
        Prog.bind_eq, Prog.pure_bind, Prog.perform_bind]
      apply safe_transQuery h
      simp only [hunknown block (by simp), Prog.modify_bind, safe_loc]
      apply Safe.mono _ (ih hextends.2 (fun block hmem => hunknown block (by simp [hmem])) _)
      · exact fun _ _ _ hpost => hpost
      · intro prev heq
        simp [← Option.some.inj heq, hheight]

/-- Blocks that are stored and extinct are revived one by one. -/
theorem safe_revive (h : Resting S w) (hknown : ∀ block ∈ t.known, block ∈ S.given)
    {revived new : List BlockData} (hnew : ∀ block ∈ new, block ∉ t.known)
    (hgiven : ∀ block ∈ new, block ∈ S.given) :
    ∀ {chain : List BlockData} {transaction : Db} {prevHeight : Option BlockHeight},
      Shows t.known chain transaction → (∀ block ∈ revived, block ∈ t.known) →
      Extends [] chain → Extends (idents chain) (revived ++ new) →
      (∀ prev, prevHeight = some prev → prev + 1 = chain.length) →
      SafeIn S (fun _ store' w' => store' = collectAll new store ∧
          w' = inTxn (reviveAll revived transaction) w)
        (reviveOrCollect (byHeight (revived ++ new)) prevHeight) store (inTxn transaction w) := by
  induction revived with
  | nil =>
      intro chain transaction prevHeight hshows _ _ hextends hprev
      apply safe_collect h hextends
      · intro block hmem
        apply hshows.extinct_unknown
        intro hin
        obtain ⟨old, hold, hid⟩ := List.mem_map.1 hin
        obtain rfl := S.injective (hknown old hold) (hgiven block hmem) hid
        exact hnew old hmem hold
      · simpa using hprev
  | cons block revived ih =>
      intro chain transaction prevHeight hshows hrevived hlinked hextends hprev
      have hheight : block.height = (idents chain).length := hextends.1.1
      rw [length_idents] at hheight
      have hcontiguous : prevHeight.all (fun prev => prev + 1 = block.height) = true := by
        cases hcase : prevHeight with
        | none => rfl
        | some prev => simpa [hheight] using hprev prev hcase
      have hblock : block ∈ t.known := hrevived block (by simp)
      have hout : block ∉ chain := fun hin =>
        absurd (height_lt_of_mem hlinked hin) (by rw [hheight]; exact lt_irrefl _)
      have hone : Extends (idents chain) [block] := ⟨hextends.1, trivial⟩
      simp only [List.cons_append, byHeight, List.map_cons, reviveOrCollect, hcontiguous,
        assertThat_true, Prog.bind_eq, Prog.pure_bind, Prog.perform_bind]
      apply safe_transQuery h
      simp only [hshows.extinct_known t.distinct hblock, hout, not_false_iff, decide_true,
        reviveBlock, Prog.bind_eq, Prog.perform_bind, Prog.act_bind]
      apply safe_transExecute h (by simp)
      rintro _ hunmarked
      obtain rfl := Except.ok.inj hunmarked
      apply safe_transExecute h (by simp)
      rintro _ hcleared
      obtain rfl := Except.ok.inj hcleared
      apply safe_transExecute h (by simp [insertEvent])
      rintro _ hevent
      obtain rfl := Except.ok.inj hevent
      apply ih (hshows.revive t.distinct hblock hone)
        (fun block hmem => hrevived block (by simp [hmem]))
        (extends_append.2 ⟨hlinked, by simpa using hone⟩)
      · simpa using hextends.2
      · intro prev heq
        simp [← Option.some.inj heq, hheight]

end Loop

/-! ## Inserting the new blocks -/

theorem safe_fetchOutputs (h : Resting S w) {transaction : Db}
    (queries : List (List HashIdOutPoint)) (out : UtxoDetailsMap) :
    SafeIn S (fun _ store' w' => store' = store ∧ w' = inTxn transaction w)
      (fetchOutputs queries out) store (inTxn transaction w) := by
  induction queries generalizing out with
  | nil => exact ⟨rfl, rfl⟩
  | cons chunk queries ih =>
      simp only [fetchOutputs, Prog.bind_eq, Prog.perform_bind]
      apply safe_transQuery h
      exact ih _

theorem safe_processBlocks (h : Resting S w) {transaction : Db} (blocks : List BlockData)
    (txIds : TxIdMap) :
    SafeIn S (fun _ store' w' => store' = store ∧ w' = inTxn transaction w)
      (processBlocks blocks txIds) store (inTxn transaction w) := by
  have hkept : Kept S (inTxn transaction w) := .inl (resting_inTxn h transaction)
  rw [processBlocks]
  cases UtxoSetCache.default.processLocal blocks txIds with
  | error reason => exact ⟨hkept, .format reason⟩
  | ok consumed =>
      simp only [Prog.bind_eq]
      apply Safe.bind _ (safe_fetchOutputs h _ _)
      rintro out _ _ ⟨rfl, rfl⟩
      cases fetchedAll consumed.missing out with
      | true => exact ⟨rfl, rfl⟩
      | false => exact ⟨hkept, .fetchedCount⟩

/-- The queries succeed as a whole, or one of them ends the call. -/
theorem safe_executeQueries (h : Resting S w) (queries : List (Db → Except SqlError Db)) :
    ∀ {transaction : Db}, (∀ error, (executeAll queries transaction).2 = some error →
        S.tolerates error) →
      SafeIn S (fun _ store' w' => store' = store ∧ ∃ after, w' = inTxn after w ∧
          executeAll queries transaction = (after, none))
        (executeQueries queries) store (inTxn transaction w) := by
  induction queries with
  | nil => exact fun _ => ⟨rfl, _, rfl, rfl⟩
  | cons query queries ih =>
      intro transaction htolerated
      simp only [executeQueries, Prog.bind_eq, Prog.perform_bind]
      apply safe_transExecute h
      · intro error herror
        apply htolerated error
        rw [executeAll_cons, herror]
      · intro after hquery
        have hall : executeAll (query :: queries) transaction = executeAll queries after :=
          executeAll_cons_ok hquery
        rw [hall]
        exact ih fun error herror => htolerated error (by rw [hall]; exact herror)

/-- What the commit makes visible. -/
def landed (after : Db) (w : World) : World := { (inTxn after w).publish after with txn := none }

theorem safe_insertBlocks (h : Resting S w) {transaction : Db} {blocks : List BlockData}
    (hnetwork : store.network = S.network)
    (htolerated : ∀ inputsUtxoMap queries error, fmtInsertBlockdataSql blocks inputsUtxoMap
      (txIdMapFromBlocks blocks S.network) store.mode S.network = .ok queries →
      (executeAll queries.toList transaction).2 = some error → S.tolerates error) :
    SafeIn S (fun _ store' w' => store' = store ∧ ∃ inputsUtxoMap queries after,
        fmtInsertBlockdataSql blocks inputsUtxoMap (txIdMapFromBlocks blocks S.network) store.mode
          S.network = .ok queries ∧
        executeAll queries.toList transaction = (after, none) ∧ w' = landed after w)
      (insertBlocks blocks) store (inTxn transaction w) := by
  simp only [insertBlocks, Prog.bind_eq, Prog.read_bind, safe_loc, hnetwork]
  apply Safe.bind _ (safe_processBlocks h blocks _)
  rintro inputsUtxoMap store _ ⟨rfl, rfl⟩
  cases hqueries : fmtInsertBlockdataSql blocks inputsUtxoMap
      (txIdMapFromBlocks blocks S.network) store.mode S.network with
  | error reason => exact ⟨.inl (resting_inTxn h transaction), .format reason⟩
  | ok queries =>
      apply Safe.bind _ (safe_executeQueries h queries.toList
        fun error herror => htolerated inputsUtxoMap queries error hqueries herror)
      rintro _ store _ ⟨rfl, after, rfl, hexecute⟩
      apply safe_alone (resting_inTxn h after)
      intro fails
      cases fails with
      | true => exact ends_abort h after S.failed
      | false => exact ⟨rfl, inputsUtxoMap, queries, after, hqueries, hexecute, rfl⟩

/-! ## The whole reorg -/

section Finish

variable {line : List BlockHash} {base : ℕ} {pending same revived new : List BlockData}
variable {t' : BlockTree}

/-- The state after the commit: the line is cut at the first different height and
continued by the blocks from there on. -/
theorem grounded_landed (h : Pending S line base pending store w)
    (hgrounded : Grounded S line w.fed t [] w)
    (hreplaces : Replaces S t t' line base same revived new pending) {mode : Mode}
    {inputsUtxoMap : UtxoDetailsMap} {queries : Queries} {after : Db}
    (hadmits : S.admits w.db (.reorg mode (base + same.length) revived new))
    (hqueries : fmtInsertBlockdataSql new inputsUtxoMap (txIdMapFromBlocks new S.network) mode
      S.network = .ok queries)
    (hexecute : executeAll queries.toList (reorganized (base + same.length) revived w.db) =
      (after, none)) :
    (view S (line.take (base + same.length) ++ idents (revived ++ new)) w.fed).At [] []
      (landed after w) := by
  have hinv : PipeInv [] w := h.at_view.1
  have hline := hgrounded.chain_eq hinv h.stopped
  have hcommitted : S.Committed t' after :=
    .reorg mode inputsUtxoMap queries (base + same.length) revived new hgrounded.committed
      hgrounded.ready hreplaces.new_given hreplaces.revived_known hreplaces.extends_kept hadmits
      hqueries hexecute hreplaces.known_eq hreplaces.chain_eq
  have htake : idents (t.chain.take (base + same.length)) = line.take (base + same.length) := by
    rw [← hline, idents, idents, List.map_take]
  have hchain : idents t'.chain =
      line.take (base + same.length) ++ idents (revived ++ new) := by
    rw [hreplaces.chain_eq, idents_append, htake]
  have hflight : flightBlocks (landed after w) = [] := by
    have hdone : (landed after w).committed = (landed after w).handed := (hinv.settled h.stopped).1
    simp [flightBlocks, flight, hdone]
  have hready : after.bulkMode ≠ none := by
    have hsame := (executed (StoredRows.saying_of_fmt
      (heights_nodup (extends_append.1 hreplaces.extends_kept).2) hqueries) hexecute).bulkMode
    rw [hsame, reorganized_bulkMode]
    exact hgrounded.ready
  refine ⟨hinv.frame rfl rfl rfl rfl rfl, t',
    { committed := hcommitted
      highest := (hgrounded.toSettled.publish hcommitted hreplaces.longer).highest
      ready := hready
      extends_chain := by simp [hflight]
      given := by simp [hflight]
      stored := fun batch hmem block hblock => ?_
      line_eq := by simp [hflight, hchain]
      fed_eq := rfl
      network := by simp [landed, inTxn, World.publish, h.stopped]
      blameless := by simp [Blameless, landed, inTxn, World.publish, h.stopped] }⟩
  rw [hreplaces.known_eq]
  exact List.mem_append_left _ (hgrounded.stored batch hmem block hblock)

def finished (collected : IndexerStore) : IndexerStore :=
  { collected with chainBlockCount := collected.chainBlockCount + 1, batch := [] }

/-- No assertion of `finish_reorg` fails, and where it returns the store is at the tip of
what the caller has been given. -/
theorem safe_finishReorg (h : Pending S line base pending store w)
    (htop : base + pending.length = line.length + 1)
    (hadmits : ∀ t' same revived new,
      (firstDifferent w.db (byHeight pending)).getD line.length = base + same.length →
      (∀ t, Settled S t w → Replaces S t t' line base same revived new pending →
        S.admits w.db (.reorg store.mode (base + same.length) revived new))) :
    SafeIn S (fun _ => Prolonged S line) finishReorg store w := by
  obtain ⟨hinv, t, hgrounded⟩ := h.at_view
  have hline := hgrounded.chain_eq hinv h.stopped
  have hsettled := hgrounded.toSettled
  have hrest : Resting S w := ⟨h.stopped, t, hsettled⟩
  obtain ⟨t', same, revived, new, hreplaces, hheight⟩ :=
    exists_replaces hsettled hline h.base_le h.given h.extends_base htop
  have hadmitted := hadmits t' same revived new hheight t hsettled hreplaces
  have hfirst : (firstDifferent w.db store.pendingReorg.entries).getD store.chainBlockCount =
      base + same.length := by
    rw [h.entries, h.count]
    exact hheight
  have hreorg : store.isInReorg = true := by
    simp [IndexerStore.isInReorg, OrderedMap.BTreeMap.isEmpty, h.entries, byHeight, h.nonempty]
  have hentries : (store.pendingReorg.splitOff (base + same.length)).entries =
      byHeight (revived ++ new) := by
    have hextends := h.extends_base
    rw [hreplaces.split] at hextends
    rw [OrderedMap.BTreeMap.entries_splitOff, h.entries, hreplaces.split,
      filter_byHeight h.base_le hextends]
  simp only [finishReorg, Prog.bind_eq, Prog.read_bind, safe_loc, hreorg, assertThat_true,
    Prog.pure_bind, Prog.perform_bind, Prog.modify_bind]
  apply safe_alone hrest
  intro fails
  simp only [exec, h.stopped, Option.any_none, Bool.not_false, assertThat_true, Prog.pure_bind]
  apply safe_begin hrest
  apply Safe.bind _ (safe_firstDifferentHeight hrest (Settled.joins hsettled) _)
  rintro _ _ _ ⟨rfl, hstore, rfl⟩
  rw [hstore, hfirst]
  apply safe_transExecute hrest (by simp)
  rintro _ hok
  obtain rfl := Except.ok.inj hok
  apply safe_transExecute hrest (by simp)
  rintro _ hok
  obtain rfl := Except.ok.inj hok
  simp only [SafeIn, safe_loc, hentries]
  have hshows := hsettled.committed.shows.revert t.nodup_known t.linked t.stored
    (base + same.length)
  apply Safe.bind _ (safe_revive hrest hsettled.committed.given hreplaces.new_unknown
    hreplaces.new_given hshows hreplaces.revived_known (t.linked.take _) hreplaces.extends_kept
    (by simp))
  rintro _ collected _ ⟨hcollected, rfl⟩
  obtain ⟨hmode, hnetwork, -, hcount, hpending⟩ :=
    collectAll_frame new { store with pendingReorg := .empty }
  have hbatch : collected.batch = new := by
    rw [hcollected, collectAll_batch]
    simp [h.batch]
  rw [← hcollected] at hmode hnetwork hcount hpending
  have hnonempty : new.isEmpty = false := by simp [hreplaces.new_nonempty]
  simp only [safe_loc, hbatch, hnonempty, Bool.not_false, assertThat_true, Prog.pure_bind]
  have hreorganized : ∀ inputsUtxoMap queries error, fmtInsertBlockdataSql new inputsUtxoMap
      (txIdMapFromBlocks new S.network) collected.mode S.network = .ok queries →
      (executeAll queries.toList (reorganized (base + same.length) revived w.db)).2 =
        some error → S.tolerates error := by
    intro inputsUtxoMap queries error hqueries herror
    rw [hmode] at hqueries
    exact S.reorg hsettled.committed hreplaces.new_given hreplaces.new_unknown
      hreplaces.revived_known hreplaces.extends_kept hadmitted hqueries herror
  have hours : (finished collected).network = S.network := hnetwork.trans h.network
  change SafeIn S _ _ (finished collected) (inTxn (reorganized (base + same.length) revived w.db) w)
  apply Safe.bind _ (safe_insertBlocks hrest hours hreorganized)
  rintro _ _ _ ⟨rfl, inputsUtxoMap, queries, after, hqueries, hexecute, rfl⟩
  have hqueries : fmtInsertBlockdataSql new inputsUtxoMap (txIdMapFromBlocks new S.network)
      store.mode S.network = .ok queries := hmode ▸ hqueries
  have hlanded := grounded_landed h hgrounded hreplaces hadmitted hqueries hexecute
  apply Safe.mono _ ((view S _ w.fed).safe_startWorkers hlanded h.stopped hours)
  rintro _ _ final ⟨rfl, hat, hrun, -⟩
  have hfed : final.fed = w.fed := by
    obtain ⟨-, _, hfinal⟩ := hat
    exact hfinal.fed_eq
  have hlen : (line.take (base + same.length) ++ idents (revived ++ new)).length =
      line.length + 1 := by
    have hsplit := congrArg List.length hreplaces.split
    rw [List.length_append] at hsplit
    rw [List.length_append, length_idents, List.length_take, Nat.min_eq_left hreplaces.below]
    omega
  have hline' : final.fed = line.take (base + same.length) ++ idents (revived ++ new) := by
    rw [hfed, h.fed_eq, hreplaces.split, idents_append, ← List.append_assoc, hreplaces.kept]
  rw [← hfed, ← hline'] at hat
  rw [← hline'] at hlen
  exact ⟨
    { pending := by simp only [finished, hpending, OrderedMap.BTreeMap.entries_empty]
      network := hours
      at_view := hat
      running := hrun
      fed_initial := List.prefix_refl _
      count := by simp only [finished, hcount, hlen, h.count] }, hlen ▸ Nat.le_succ _⟩

end Finish

end BitcoinIndexer.Reorg
