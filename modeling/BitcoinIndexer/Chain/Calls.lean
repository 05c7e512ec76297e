import BitcoinIndexer.Chain.Reorg

/-!
# The calls of the store

Each call leaves the store at the tip of its line or in a reorg, where it returns at
all.  The first section is about inserting a block, the last about the query by height.
-/

namespace BitcoinIndexer.Calls

open BitcoinIndexer.Types
open BitcoinIndexer.Tables
open BitcoinIndexer.ReferenceChain
open BitcoinIndexer.Worker
open BitcoinIndexer.Store
open BitcoinIndexer.Pipeline
open BitcoinIndexer.ChainState
open BitcoinIndexer.Grounding
open BitcoinIndexer.Following
open BitcoinIndexer.Replacement
open BitcoinIndexer.Reorg
open BitcoinIndexer.Interleaving

variable {S : Setting} {α β : Type} {w : World} {store : IndexerStore} {t : BlockTree}
variable {line fed : List BlockHash} {next : List BlockData} {block : BlockData}

/-! ## Inserting in a reorg -/

/-- The pending reorg after one more block. -/
theorem pending_insert {base : ℕ} {pending : List BlockData}
    (h : InReorg S line base pending store w) (hfeeds : Feeds w.fed block)
    (hgiven : block ∈ S.given) :
    ∃ base' pending', base' + pending'.length = block.height + 1 ∧
      Pending S line base' pending'
        { store with
          pendingReorg := (store.pendingReorg.below block.height).insert block.height block }
        { w with fed := feed w.fed block } := by
  have hfeeds' := hfeeds
  rw [h.fed_eq] at hfeeds'
  obtain ⟨hextends, hfeed⟩ := extends_feed h.base_le h.extends_base hfeeds'
  rw [← h.fed_eq] at hfeed
  have hbase : min base (Link.height block) ≤ line.length := (min_le_left _ _).trans h.base_le
  refine ⟨_, _, ?_,
    { entries := ?_
      nonempty := by simp
      network := h.network
      batch := h.batch
      at_view := at_feed h.at_view _
      stopped := h.stopped
      given := ?_
      base_le := hbase
      extends_base := hextends
      fed_eq := hfeed
      count := h.count }⟩
  · have hget : (pending.filter (fun old => decide (Link.height old < Link.height block)) ++
        [block])[(pending.filter fun old => decide (Link.height old < Link.height block)).length]? =
          some block := by simp
    have hlast := hextends.height_eq hget
    rw [List.length_take, Nat.min_eq_left hbase] at hlast
    rw [List.length_append, List.length_singleton, ← Nat.add_assoc, ← hlast]
    rfl
  · rw [OrderedMap.BTreeMap.entries_insert_below, h.entries, byHeight, byHeight, List.filter_map,
      List.map_append]
    rfl
  · intro old hmem
    obtain hold | hnew := List.mem_append.1 hmem
    · exact h.given old (List.mem_of_mem_filter hold)
    · exact List.mem_singleton.1 hnew ▸ hgiven

theorem safe_insertWhenInReorg {base : ℕ} {pending : List BlockData}
    (h : InReorg S line base pending store w) (hfeeds : Feeds w.fed block)
    (hgiven : block ∈ S.given)
    (hadmits : block.height = store.chainBlockCount → S.admits w.db (planned store w.db block)) :
    SafeIn S (fun _ store' w' => Prolonged S line store' w' ∨ Reorging S line store' w')
      (insertWhenInReorg block) store { w with fed := feed w.fed block } := by
  obtain ⟨base', pending', hlen, hpending⟩ := pending_insert h hfeeds hgiven
  have hle : Link.height block ≤ line.length := by
    have hfed := hfeeds.1
    rw [h.fed_eq, List.length_append, length_idents, List.length_take,
      Nat.min_eq_left h.base_le] at hfed
    exact hfed.trans h.below
  have hbelow : decide (block.height ≤ store.chainBlockCount) = true := by
    rw [h.count]
    exact decide_eq_true hle
  have hadmits : block.height = store.chainBlockCount →
      S.admits ({ w with fed := feed w.fed block } : World).db
        (planned store ({ w with fed := feed w.fed block } : World).db block) := hadmits
  generalize ({ w with fed := feed w.fed block } : World) = after at hpending hadmits ⊢
  have hrest : Resting S after := by
    obtain ⟨-, t, hgrounded⟩ := hpending.at_view
    exact ⟨hpending.stopped, t, hgrounded.toSettled⟩
  simp only [insertWhenInReorg, Prog.bind_eq, Prog.read_bind, safe_loc, h.isInReorg,
    assertThat_true, Prog.pure_bind, Prog.perform_bind, Prog.modify_bind]
  apply safe_alone hrest
  intro fails
  simp only [exec, hpending.stopped, Option.any_none, Bool.not_false, assertThat_true,
    Prog.pure_bind, hbelow, SafeIn, safe_loc]
  by_cases htop : block.height = store.chainBlockCount
  · have hlen' : base' + pending'.length = line.length + 1 := by rw [hlen, htop, h.count]
    rw [decide_eq_true htop, whenever_true]
    apply Safe.mono _ (safe_finishReorg hpending hlen' _)
    · exact fun _ _ _ hpost => .inl hpost
    · intro t' same revived new hheight t hsettled hreplaces
      have hplanned := planned_eq hsettled hreplaces hpending.base_le hpending.extends_base
        hpending.entries hheight h.count
      exact hplanned ▸ hadmits htop
  · rw [decide_eq_false htop, whenever_false, safe_pure]
    have hlow : base' + pending'.length ≤ line.length := by
      rw [hlen]
      apply Nat.lt_of_le_of_ne hle
      intro heq
      exact htop (heq.trans h.count.symm)
    exact .inr ⟨base', pending', hpending, hlow⟩

/-! ## Inserting below the tip -/

theorem flushed_batch (store : IndexerStore) : (View.flushed store).batch = [] := by
  by_cases hempty : store.batch.isEmpty
  · rw [View.flushed, if_pos hempty]
    exact List.isEmpty_iff.1 hempty
  · rw [View.flushed, if_neg hempty]

/-- Flushing touches the batch only. -/
theorem flushed_frame (store : IndexerStore) :
    (View.flushed store).pendingReorg = store.pendingReorg ∧
      (View.flushed store).chainBlockCount = store.chainBlockCount ∧
      (View.flushed store).nodeChainHeadHeight = store.nodeChainHeadHeight := by
  by_cases hempty : store.batch.isEmpty <;> simp [View.flushed, hempty]

/-- The query for the block at a height, wherever the committed state shows a tree. -/
theorem query_hashAtHeight (h : Settled S t w) (height : BlockHeight) :
    queryOpt (w.db.blocksAtHeight height) = .ok (w.db.blocksAtHeight height).head? ∧
      joinHash (w.db.blocksAtHeight height).head? = pure (idents t.chain)[height]? := by
  rw [h.committed.shows.blocksAtHeight t.nodup_known t.linked t.stored, idents,
    List.getElem?_map]
  cases t.chain[height]? with
  | none => exact ⟨rfl, rfl⟩
  | some block => simp [queryOpt, joinHash, BlockData.hashId]

theorem safe_query {select : Db → Except SqlError β} {next : β → StoreM α}
    {Q : α → IndexerStore → World → Prop} {value : β} (h : Resting S w)
    (hselect : select w.db = .ok value) (hnext : SafeIn S Q (next value) store w) :
    SafeIn S Q (.act (.query select) next) store w := by
  apply safe_alone h
  intro fails
  cases fails with
  | true => exact ⟨.inl h, .err _ S.failed⟩
  | false =>
      simp only [exec, execSelect, hselect]
      exact hnext

/-- The store at the tip, with a block the caller has just been given after `fed`. -/
structure Given (S : Setting) (line fed : List BlockHash) (block : BlockData)
    (store : IndexerStore) (w : World) : Prop where
  pending : store.pendingReorg.entries = []
  network : store.network = S.network
  at_view : (view S line (feed fed block)).At [] store.batch w
  running : Running w
  feeds : Feeds fed block
  given : block ∈ S.given
  fed_initial : fed <+: line
  count : store.chainBlockCount = line.length

/-- A block below the tip truncates what the caller has been given: it is the one of
the line, or the first of a reorg. -/
theorem safe_insertBelowTip (h : Given S line fed block store w)
    (hbelow : Link.height block < line.length) :
    SafeIn S (fun _ store' w' => AtTip S line store' w' ∨ Reorging S line store' w')
      (insertBelowTip block) store w := by
  have hat : (view S line (feed fed block)).At [] (store.batch ++ []) w := by
    rw [List.append_nil]
    exact h.at_view
  obtain ⟨hpending, hcount, -⟩ := flushed_frame store
  simp only [insertBelowTip, Prog.bind_eq]
  apply Safe.bind _ ((view S line (feed fed block)).safe_flushBatch hat h.running)
  rintro _ _ flushed ⟨rfl, hat, hrun⟩
  apply Safe.bind _ ((view S line (feed fed block)).safe_stopWorkers hat hrun)
  rintro _ _ stopped ⟨rfl, hat, hworkers⟩
  obtain ⟨hinv, t, hgrounded⟩ := hat
  have hrest : Resting S stopped := ⟨hworkers, t, hgrounded.toSettled⟩
  obtain ⟨hquery, hjoin⟩ := query_hashAtHeight hgrounded.toSettled block.height
  rw [hgrounded.chain_eq hinv hworkers] at hjoin
  have hget : (line)[block.height]? = some (line.get ⟨block.height, hbelow⟩) :=
    List.getElem?_eq_getElem hbelow
  simp only [readDbBlockHashByHeight, Prog.bind_eq, Prog.perform_bind, Prog.act_bind]
  apply safe_query hrest hquery
  rw [hjoin, hget]
  simp only [Prog.pure_eq, Prog.pure_bind]
  by_cases hsame : line.get ⟨block.height, hbelow⟩ = block.id
  · simp only [hsame, if_true]
    apply Safe.mono _ ((view S line (feed fed block)).safe_startWorkers
      ⟨hinv, t, hgrounded⟩ hworkers ((View.flushed_network store).trans h.network))
    rintro _ _ final ⟨rfl, hat, hrun, -⟩
    have hfed : final.fed = feed fed block := by
      obtain ⟨-, _, hfinal⟩ := hat
      exact hfinal.fed_eq
    refine .inl ⟨?_, (View.flushed_network store).trans h.network, ?_, hrun, ?_, ?_⟩
    · rw [hpending, h.pending]
    · rw [flushed_batch, hfed]
      exact hat
    · rw [hfed]
      exact feed_initial h.fed_initial h.feeds.1 (by rw [link_height, hget, hsame]; rfl)
    · rw [hcount, h.count]
  · have htake : fed.take (Link.height block) = line.take (Link.height block) := by
      obtain ⟨rest, hrest⟩ := h.fed_initial
      rw [← hrest, List.take_append_of_le_length h.feeds.1]
    have hshort : Link.height block = (line.take (Link.height block)).length := by
      rw [List.length_take, Nat.min_eq_left hbelow.le]
    have hextends : Extends (line.take (Link.height block)) [block] := by
      apply Feeds.extends _ hshort
      apply h.feeds.of_take_eq hshort.le
      rw [htake, List.take_take, Nat.min_self]
    have hentries : (store.pendingReorg.insert block.height block).entries = byHeight [block] := by
      simp [OrderedMap.BTreeMap.insert, h.pending, byHeight]
    have hreorg : ({ View.flushed store with
        pendingReorg := (View.flushed store).pendingReorg.insert block.height block } :
          IndexerStore).isInReorg = true := by
      rw [IndexerStore.isInReorg, OrderedMap.BTreeMap.isEmpty, hpending, hentries]
      rfl
    have hempty : (View.flushed store).batch.isEmpty = true := by rw [flushed_batch]; rfl
    simp only [hsame, if_false, Prog.read_bind, safe_loc, hempty, assertThat_true, Prog.pure_bind,
      Prog.modify_bind, hreorg, safe_pure]
    have hfed : stopped.fed = feed fed block := hgrounded.fed_eq
    refine .inr ⟨Link.height block, [block],
      { entries := ?_
        nonempty := by simp
        network := (View.flushed_network store).trans h.network
        batch := flushed_batch store
        at_view := by rw [hfed]; exact ⟨hinv, t, hgrounded⟩
        stopped := hworkers
        given := by simpa using h.given
        base_le := hbelow.le
        extends_base := hextends
        fed_eq := by rw [hfed, feed, htake]; rfl
        count := hcount.trans h.count
        below := hbelow }⟩
    simp only [hpending, hentries]

/-! ## Extending the tip -/

section Running

variable {Q : α → IndexerStore → World → Prop}

/-- A statement that replaces the committed state by one that shows the same tree. -/
theorem safe_execute {statement : Db → Except SqlError Db} {rest : Unit → StoreM α}
    (hat : (view S line fed).At [] next w) (hrun : Running w)
    (hstatement : ∀ t w, Grounded S line fed t next w → ∀ db, statement w.db = .ok db →
      S.Committed t db ∧ db.bulkMode ≠ none)
    (herror : ∀ t w error, Grounded S line fed t next w → statement w.db = .error error →
      S.tolerates error)
    (hrest : ∀ w, (view S line fed).At [] next w → Running w → SafeIn S Q (rest ()) store w) :
    SafeIn S Q (.act (.execute statement) rest) store w := by
  apply Safe.act ((view S line fed).stable_running [] next)
    (fun _ h => (view S line fed).inv h.1.1 h.1.2) _ ⟨hat, hrun⟩
  rintro ready ⟨⟨hinv, t, hgrounded⟩, hrun⟩ fails _
  have hkept : Kept S ready := (view S line fed).inv hinv ⟨t, hgrounded⟩
  cases fails with
  | true => exact ⟨hkept, .err _ S.failed⟩
  | false =>
      cases hresult : statement ready.db with
      | error error =>
          simp only [systemOf_exec, exec, execStatement, hresult]
          exact ⟨hkept, .err error (herror t ready error hgrounded hresult)⟩
      | ok db =>
          simp only [systemOf_exec, exec, execStatement, hresult]
          obtain ⟨hcommitted, hready⟩ := hstatement t ready hgrounded db hresult
          exact hrest _ ⟨hinv.frame rfl rfl rfl rfl rfl, t, hgrounded.publish hcommitted hready⟩
            hrun

/-- Changing to the normal mode: the batch is handed over, the schema gets its keys. -/
theorem safe_setMode_normal (hat : (view S line fed).At [] store.batch w) (hrun : Running w)
    (hnetwork : store.network = S.network) :
    SafeIn S (fun _ store' w' => (view S line fed).At [] store'.batch w' ∧ Running w' ∧
        store'.network = S.network ∧ store'.pendingReorg = store.pendingReorg ∧
        store'.chainBlockCount = store.chainBlockCount)
      (setMode .normal) store w := by
  simp only [setMode, Prog.bind_eq, Prog.read_bind, SafeIn, safe_loc]
  by_cases hmode : store.mode = .normal
  · rw [if_pos hmode]
    exact ⟨hat, hrun, hnetwork, rfl, rfl⟩
  · rw [if_neg hmode]
    simp only [setModeUncodintionally, Prog.bind_eq, Prog.modify_bind, safe_loc]
    have hat' : (view S line fed).At [] ({ store with mode := .normal }.batch ++ []) w := by
      rwa [List.append_nil]
    apply Safe.bind _ ((view S line fed).safe_flushWorkers hat' hrun hnetwork)
    rintro _ _ flushed ⟨rfl, hat, hrun, -⟩
    obtain ⟨hpending, hcount, -⟩ := flushed_frame { store with mode := .normal }
    apply safe_execute hat hrun
    · intro t w hgrounded db hresult
      by_cases hkeys : keysUnique .normal w.db
      · obtain rfl : { w.db with schema := .normal } = db := by
          simpa [Db.setSchema, hkeys] using hresult
        exact ⟨.schema .normal hgrounded.committed hkeys, hgrounded.ready⟩
      · simp [Db.setSchema, hkeys] at hresult
    · exact fun t w error hgrounded hresult => S.schema hgrounded.committed hresult
    · intro w hat hrun
      apply safe_execute hat hrun
      · intro t w hgrounded db hresult
        obtain ⟨bulk, hbulk⟩ := Option.ne_none_iff_exists'.1 hgrounded.ready
        obtain rfl : { w.db with bulkMode := some Mode.normal.isBulk } = db := by
          simpa [updateBulkMode, hbulk] using hresult
        exact ⟨.bulkMode _ hgrounded.committed, Option.some_ne_none _⟩
      · simp [updateBulkMode]
      · intro w hat hrun
        rw [← flushed_batch { store with mode := .normal }] at hat
        exact ⟨hat, hrun, (View.flushed_network _).trans hnetwork, hpending, hcount⟩

end Running

/-- A block at the tip prolongs the line and what the caller has been given. -/
theorem safe_insertExtending (h : Given S line fed block store w)
    (htip : Link.height block = line.length) :
    SafeIn S (fun _ => Prolonged S line) (insertExtending block) store w := by
  have hfed : fed = line := by
    apply h.fed_initial.eq_of_length_le
    rw [← htip]
    exact h.feeds.1
  have hfeed : feed fed block = line ++ idents [block] := by
    rw [hfed, feed_tip htip]
    rfl
  have hat : (view S (line ++ idents [block]) (feed fed block)).At [] (store.push block).batch
      w := by
    obtain ⟨hinv, t, hgrounded⟩ := h.at_view
    exact ⟨hinv, t, hgrounded.grow (by simpa using h.given) ((hfed ▸ h.feeds).extends htip)⟩
  have hflush : ∀ condition : Bool, SafeIn S (fun _ store' w' =>
      (view S (line ++ idents [block]) (feed fed block)).At [] store'.batch w' ∧ Running w' ∧
        store'.network = S.network ∧ store'.pendingReorg = store.pendingReorg ∧
        store'.chainBlockCount = line.length + 1)
      (whenever condition flushBatch) (store.push block) w := by
    intro condition
    have hcount : store.chainBlockCount + 1 = line.length + 1 := by rw [h.count]
    cases condition with
    | false => exact ⟨hat, h.running, h.network, rfl, hcount⟩
    | true =>
        obtain ⟨hpending, hkept, -⟩ := flushed_frame (store.push block)
        rw [← List.append_nil (store.push block).batch] at hat
        apply Safe.mono _ ((view S _ _).safe_flushBatch hat h.running)
        rintro _ _ flushed ⟨rfl, hat, hrun⟩
        have hempty := flushed_batch (store.push block)
        exact ⟨by rw [hempty]; exact hat, hrun, (View.flushed_network _).trans h.network, hpending, hkept.trans hcount⟩
  simp only [insertExtending, Prog.bind_eq, Prog.modify_bind, Prog.read_bind, SafeIn, safe_loc]
  apply Safe.bind _ (hflush _)
  rintro _ flushed w' ⟨hat, hrun, hnetwork, hpending, hcount⟩
  have hfinal : ∀ (store' : IndexerStore) (w' : World),
      (view S (line ++ idents [block]) (feed fed block)).At [] store'.batch w' →
      Running w' → store'.network = S.network → store'.pendingReorg = store.pendingReorg →
      store'.chainBlockCount = line.length + 1 → Prolonged S line store' w' := by
    intro store' w' hat hrun hnetwork hpending hcount
    have hfed' : w'.fed = feed fed block := by
      obtain ⟨-, _, hgrounded⟩ := hat
      exact hgrounded.fed_eq
    have hline : w'.fed = line ++ idents [block] := hfed'.trans hfeed
    have hlen : w'.fed.length = line.length + 1 := by
      rw [hline, List.length_append, length_idents, List.length_singleton]
    rw [← hline, ← hfed'] at hat
    exact ⟨
      { pending := by rw [hpending, h.pending]
        network := hnetwork
        at_view := hat
        running := hrun
        fed_initial := List.prefix_refl _
        count := hcount.trans hlen.symm }, hlen ▸ Nat.le_succ _⟩
  by_cases hhead : (store.push block).nodeChainHeadHeight = block.height
  · simp only [hhead, decide_true, whenever_true]
    apply Safe.mono _ (safe_setMode_normal hat hrun hnetwork)
    rintro _ store' w' ⟨hat, hrun, hnetwork, hpending', hcount'⟩
    exact hfinal store' w' hat hrun hnetwork (hpending'.trans hpending) (hcount'.trans hcount)
  · simp only [hhead, decide_false, whenever_false, safe_pure]
    exact hfinal flushed w' hat hrun hnetwork hpending hcount

/-- Both assertions and the bound on the height hold, whatever the workers do. -/
theorem safe_insertWhenAtTip (h : Given S line fed block store w) :
    SafeIn S (fun _ store' w' => Prolonged S line store' w' ∨ AtTip S line store' w' ∨
        Reorging S line store' w')
      (insertWhenAtTip block) store w := by
  have hle : Link.height block ≤ line.length := h.feeds.1.trans h.fed_initial.length_le
  have hbelow : decide (block.height ≤ store.chainBlockCount) = true := by
    rw [h.count]
    exact decide_eq_true hle
  have hreorg : store.isInReorg = false := by
    simp [IndexerStore.isInReorg, OrderedMap.BTreeMap.isEmpty, h.pending]
  simp only [insertWhenAtTip, Prog.bind_eq, Prog.read_bind, SafeIn, safe_loc, hreorg,
    Bool.not_false, assertThat_true, Prog.pure_bind, Prog.perform_bind]
  apply Safe.act ((view S line (feed fed block)).stable_running [] store.batch)
    (fun _ hready => (view S line (feed fed block)).inv hready.1.1 hready.1.2) _
    ⟨h.at_view, h.running⟩
  rintro ready ⟨hat, p, hworkers, htx⟩ fails _
  have hgiven : Given S line fed block store ready :=
    { h with at_view := hat, running := ⟨p, hworkers, htx⟩ }
  simp only [systemOf_exec, exec, hworkers, Option.any_some, htx, Bool.not_true, Bool.not_false,
    assertThat_true, Prog.pure_bind, hbelow]
  by_cases htip : block.height = store.chainBlockCount
  · simp only [htip, ne_eq, not_true, if_false]
    exact (safe_insertExtending hgiven (htip.trans h.count)).mono fun _ _ _ hpost => .inl hpost
  · simp only [htip, ne_eq, not_false_iff, if_true]
    have hbelow : Link.height block < line.length := by
      apply Nat.lt_of_le_of_ne hle
      intro heq
      exact htip (heq.trans h.count.symm)
    exact (safe_insertBelowTip hgiven hbelow).mono fun _ _ _ hpost => .inr hpost

theorem safe_insert_tip (h : AtTip S line store w) (hfeeds : Feeds w.fed block)
    (hgiven : block ∈ S.given) :
    SafeIn S (fun _ store' w' => Prolonged S line store' w' ∨ AtTip S line store' w' ∨
        Reorging S line store' w')
      (Store.insert block) store { w with fed := feed w.fed block } := by
  simp only [Store.insert, Prog.bind_eq, Prog.read_bind, SafeIn, safe_loc, h.isInReorg,
    Bool.false_eq_true, if_false]
  exact safe_insertWhenAtTip
    { pending := h.pending
      network := h.network
      at_view := at_feed h.at_view _
      running := h.running
      feeds := hfeeds
      given := hgiven
      fed_initial := h.fed_initial
      count := h.count }

theorem safe_insert_reorg {base : ℕ} {pending : List BlockData}
    (h : InReorg S line base pending store w) (hfeeds : Feeds w.fed block)
    (hgiven : block ∈ S.given)
    (hadmits : block.height = store.chainBlockCount → S.admits w.db (planned store w.db block)) :
    SafeIn S (fun _ store' w' => Prolonged S line store' w' ∨ Reorging S line store' w')
      (Store.insert block) store { w with fed := feed w.fed block } := by
  simp only [Store.insert, Prog.bind_eq, Prog.read_bind, SafeIn, safe_loc, h.isInReorg, if_true]
  exact safe_insertWhenInReorg h hfeeds hgiven hadmits

/-- Every insert of a block in order leaves the store between two calls. -/
theorem safe_insert (h : Idle S store w) (hfeeds : Feeds w.fed block) (hgiven : block ∈ S.given)
    (hadmits : store.isInReorg = true → block.height = store.chainBlockCount →
      S.admits w.db (planned store w.db block)) :
    SafeIn S (fun _ => Idle S) (Store.insert block) store { w with fed := feed w.fed block } := by
  obtain ⟨line, htip⟩ | ⟨line, base, pending, hreorg⟩ := h
  · apply Safe.mono _ (safe_insert_tip htip hfeeds hgiven)
    rintro _ _ _ (hprolonged | hkept | hreorging)
    · exact hprolonged.idle
    · exact hkept.idle
    · exact hreorging.idle
  · apply Safe.mono _ (safe_insert_reorg hreorg hfeeds hgiven (hadmits hreorg.isInReorg))
    rintro _ _ _ (hprolonged | hreorging)
    · exact hprolonged.idle
    · exact hreorging.idle

/-! ## The hash at a height -/

/-- The pending blocks over the line. -/
def overlaid (line : List BlockHash) (base : ℕ) (pending : List BlockData) : List BlockHash :=
  line.take base ++ idents pending ++ line.drop (base + pending.length)

theorem get_byHeight {chain : List BlockHash} {pending : List BlockData}
    (h : Extends chain pending) (height : BlockHeight) :
    ((byHeight pending).find? fun entry => entry.1 = height).map (·.2) =
      if chain.length ≤ height then pending[height - chain.length]? else none := by
  induction pending generalizing chain with
  | nil => simp [byHeight]
  | cons block rest ih =>
      obtain ⟨⟨hheight, -⟩, hrest⟩ := h
      replace hheight : block.height = chain.length := hheight
      have hrec := ih hrest
      simp only [byHeight, List.map_cons, List.find?_cons] at hrec ⊢
      rw [List.length_append, List.length_singleton] at hrec
      by_cases heq : block.height = height
      · simp [heq, ← hheight]
      · simp only [heq, decide_false]
        rw [hrec, hheight] at *
        obtain hlt | hge := Nat.lt_or_ge height chain.length
        · rw [if_neg (Nat.not_le.2 (Nat.lt_succ_of_lt hlt)), if_neg (Nat.not_le.2 hlt)]
        · obtain ⟨index, rfl⟩ := Nat.exists_eq_add_of_le hge
          cases index with
          | zero => exact absurd rfl heq
          | succ index =>
              rw [if_pos (Nat.add_le_add_left (Nat.succ_le_succ (Nat.zero_le _)) _), if_pos hge]
              simp [Nat.add_sub_add_left]

theorem get_overlaid {base : ℕ} {pending : List BlockData}
    (h : InReorg S line base pending store w) (height : BlockHeight) :
    (overlaid line base pending)[height]? =
      ((store.pendingReorg.get height).map (·.id)).or (line)[height]? := by
  have hget := get_byHeight h.extends_base height
  rw [List.length_take, Nat.min_eq_left h.base_le, ← h.entries] at hget
  have hbase : (line.take base).length = base := by
    rw [List.length_take, Nat.min_eq_left h.base_le]
  rw [OrderedMap.BTreeMap.get, hget, overlaid]
  obtain hlow | hhigh := Nat.lt_or_ge height base
  · rw [if_neg (Nat.not_le.2 hlow), List.append_assoc,
      List.getElem?_append_left (by rwa [hbase]), List.getElem?_take_of_lt hlow]
    rfl
  · obtain ⟨index, rfl⟩ := Nat.exists_eq_add_of_le hhigh
    rw [if_pos hhigh, Nat.add_sub_cancel_left, List.append_assoc,
      List.getElem?_append_right (by rw [hbase]; exact hhigh), hbase, Nat.add_sub_cancel_left]
    obtain hin | hout := Nat.lt_or_ge index pending.length
    · rw [List.getElem?_append_left (by rwa [length_idents]), List.getElem?_eq_getElem hin]
      simp [idents, List.getElem?_eq_getElem hin]
    · rw [List.getElem?_append_right (by rwa [length_idents]), length_idents,
        List.getElem?_drop, List.getElem?_eq_none hout]
      congr 1
      omega

theorem length_overlaid {base : ℕ} {pending : List BlockData}
    (h : InReorg S line base pending store w) :
    (overlaid line base pending).length = line.length := by
  have hbelow := h.below
  simp only [overlaid, List.length_append, List.length_take, length_idents, List.length_drop]
  omega

/-- At the tip the answer is the block of the line, which stays as it is. -/
theorem safe_getHashByHeight_tip (h : AtTip S line store w) (height : BlockHeight) :
    SafeIn S (fun answer store' w' => AtTip S line store' w' ∧ w'.fed = w.fed ∧
        answer = (line)[height]?)
      (getHashByHeight height) store w := by
  simp only [getHashByHeight, Prog.bind_eq, Prog.read_bind, SafeIn, safe_loc]
  by_cases habove : store.chainBlockCount ≤ height
  · rw [if_pos habove]
    refine ⟨h, rfl, (List.getElem?_eq_none ?_).symm⟩
    exact h.count ▸ habove
  · rw [if_neg habove]
    have hget : store.pendingReorg.get height = none := by
      simp [OrderedMap.BTreeMap.get, h.pending]
    rw [hget]
    simp only [readDbBlockHashByHeight, Prog.bind_eq, Prog.perform_bind]
    obtain ⟨hpending, hcount, -⟩ := flushed_frame store
    have hat : (view S line w.fed).At [] (store.batch ++ []) w := by
      rw [List.append_nil]
      exact h.at_view
    apply Safe.bind _ ((view S line w.fed).safe_flushWorkers hat h.running h.network)
    rintro _ _ flushed ⟨rfl, hat, hlanded⟩
    apply Safe.act ((view S line w.fed).stable_landed [])
      (fun _ hready => (view S line w.fed).inv hready.1.1 hready.1.2) _ ⟨hat, hlanded⟩
    rintro ready ⟨⟨hinv, t, hgrounded⟩, hrun, hall⟩ fails _
    have hfed : ready.fed = w.fed := hgrounded.fed_eq
    have htip : AtTip S line (View.flushed store) ready :=
      { pending := by rw [hpending, h.pending]
        network := (View.flushed_network store).trans h.network
        at_view := by
          rw [hfed, flushed_batch]
          exact ⟨hinv, t, hgrounded⟩
        running := hrun
        fed_initial := by
          rw [hfed]
          exact h.fed_initial
        count := hcount.trans h.count }
    cases fails with
    | true => exact ⟨htip.kept, .err _ S.failed⟩
    | false =>
        -- nothing is on its way, so the line is what the database shows
        have hline : idents t.chain = line := by
          rw [← hgrounded.line_eq]
          simp [flightBlocks, flight, hall]
        obtain ⟨hquery, hjoin⟩ := query_hashAtHeight hgrounded.toSettled height
        rw [hline] at hjoin
        simp only [systemOf_exec, exec, execSelect, hquery, hjoin]
        exact ⟨htip, hfed, rfl⟩

/-- In a reorg the workers are stopped, and nothing changes. -/
theorem safe_getHashByHeight_reorg {base : ℕ} {pending : List BlockData}
    (h : InReorg S line base pending store w) (height : BlockHeight) :
    SafeIn S (fun answer store' w' => InReorg S line base pending store' w' ∧ w'.fed = w.fed ∧
        answer = (overlaid line base pending)[height]?)
      (getHashByHeight height) store w := by
  simp only [getHashByHeight, Prog.bind_eq, Prog.read_bind, SafeIn, safe_loc]
  by_cases habove : store.chainBlockCount ≤ height
  · rw [if_pos habove]
    refine ⟨h, rfl, (List.getElem?_eq_none ?_).symm⟩
    rw [length_overlaid h]
    exact h.count ▸ habove
  · rw [if_neg habove, get_overlaid h]
    cases store.pendingReorg.get height with
    | some block => exact ⟨h, rfl, rfl⟩
    | none =>
        simp only [readDbBlockHashByHeight, Prog.bind_eq, Prog.perform_bind]
        apply Safe.bind _ ((view S line w.fed).safe_flushWorkers_stopped h.at_view h.stopped)
        rintro _ store flushed ⟨rfl, ⟨hinv, t, hgrounded⟩, hworkers⟩
        have hfed : flushed.fed = w.fed := hgrounded.fed_eq
        have hreorg : InReorg S line base pending store flushed :=
          { h with
            at_view := by
              rw [hfed]
              exact ⟨hinv, t, hgrounded⟩
            stopped := hworkers
            fed_eq := by
              rw [hfed]
              exact h.fed_eq }
        obtain ⟨hquery, hjoin⟩ := query_hashAtHeight hgrounded.toSettled height
        rw [hgrounded.chain_eq hinv hworkers] at hjoin
        apply safe_query ⟨hworkers, t, hgrounded.toSettled⟩ hquery
        rw [hjoin]
        exact ⟨hreorg, hfed, by simp⟩

theorem safe_getHashByHeight (h : Idle S store w) (height : BlockHeight) :
    SafeIn S (fun _ => Idle S) (getHashByHeight height) store w := by
  obtain ⟨line, htip⟩ | ⟨line, base, pending, hreorg⟩ := h
  · apply Safe.mono _ (safe_getHashByHeight_tip htip height)
    exact fun _ _ _ hpost => hpost.1.idle
  · apply Safe.mono _ (safe_getHashByHeight_reorg hreorg height)
    exact fun _ _ _ hpost => .inr ⟨line, base, pending, hpost.1⟩

end BitcoinIndexer.Calls
