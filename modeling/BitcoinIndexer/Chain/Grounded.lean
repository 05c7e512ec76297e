import BitcoinIndexer.Chain.BlockTree
import BitcoinIndexer.Pipeline.Programs

/-!
# What the store keeps true while its workers run

The line of the store is the committed chain, followed by what is in flight and
what it has still to hand over.  Every step of the workers moves blocks along the
line and leaves the line itself as it is, so that it can be compared with what the
caller has been given.
-/

namespace BitcoinIndexer.Grounding

open BitcoinIndexer.Types
open BitcoinIndexer.Tables
open BitcoinIndexer.Formatter
open BitcoinIndexer.ReferenceChain
open BitcoinIndexer.Execution
open BitcoinIndexer.Worker
open BitcoinIndexer.Store
open BitcoinIndexer.Pipeline
open BitcoinIndexer.ChainState
open BitcoinIndexer.Interleaving

/-- What a run is given: blocks determined by their ids, one network, what every
commit meets in the state it starts from, and the errors that this leaves possible. -/
structure Setting where
  given : Set BlockData
  injective : Set.InjOn BlockData.hashId given
  network : Network
  admits : Db → Commit → Prop
  tolerates : SqlError → Prop
  failed : tolerates .failed
  /-- The queries of a batch end with such an error only. -/
  batch : ∀ {t db mode inputsUtxoMap queries blocks error}, Committed given network admits t db →
    (∀ block ∈ blocks, block ∈ given) → Extends (idents t.chain) blocks →
    admits db (.batch mode blocks) → fmtInsertBlockdataSql blocks inputsUtxoMap
      (txIdMapFromBlocks blocks network) mode network = .ok queries →
    (executeAll queries.toList db).2 = some error → tolerates error
  reorg : ∀ {t db mode inputsUtxoMap queries height revived new error},
    Committed given network admits t db → (∀ block ∈ new, block ∈ given) →
    (∀ block ∈ new, block ∉ t.known) → (∀ block ∈ revived, block ∈ t.known) →
    Extends (idents (t.chain.take height)) (revived ++ new) →
    admits db (.reorg mode height revived new) → fmtInsertBlockdataSql new inputsUtxoMap
      (txIdMapFromBlocks new network) mode network = .ok queries →
    (executeAll queries.toList (reorganized height revived db)).2 = some error → tolerates error
  schema : ∀ {t db mode error}, Committed given network admits t db →
    db.setSchema mode = .error error → tolerates error

def flightBlocks (w : World) : List BlockData := (flight w).flatMap (·.blocks)

variable {S : Setting} {line fed : List BlockHash} {t : BlockTree} {next : List BlockData}
variable {w : World} {p : Workers} {extra : List BlockHash}

abbrev Setting.Committed (S : Setting) : BlockTree → Db → Prop :=
  ChainState.Committed S.given S.network S.admits

/-- The committed state shows a tree as high as any before it. -/
structure Settled (S : Setting) (t : BlockTree) (w : World) : Prop where
  committed : S.Committed t w.db
  highest : w.highest = t.chain.length

def Blameless (S : Setting) (w : World) : Prop :=
  ∀ p, w.workers = some p → ∀ error, p.writer = .exited (.err error) → S.tolerates error

/-- The tree of the committed state, the blocks on their way to it and those still to
be handed over. -/
structure Grounded (S : Setting) (line fed : List BlockHash) (t : BlockTree)
    (next : List BlockData) (w : World) : Prop extends Settled S t w where
  ready : w.db.bulkMode ≠ none
  extends_chain : Extends (idents t.chain) (flightBlocks w ++ next)
  given : ∀ block ∈ flightBlocks w ++ next, block ∈ S.given
  stored : ∀ batch ∈ w.committed, ∀ block ∈ batch.blocks, block ∈ t.known
  line_eq : idents t.chain ++ idents (flightBlocks w ++ next) = line
  fed_eq : w.fed = fed
  network : ∀ p, w.workers = some p → p.network = S.network
  blameless : Blameless S w

/-! ## Steps of the workers -/

theorem flight_of_received (h : PipeInv extra w) (hworkers : w.workers = some p)
    {msg : WriterMsg} (hreceived : p.writer = .received msg) :
    ∃ rest, flight w = msg.batch :: rest := by
  have hreach := h.reach
  have hlive : ∃ later, live w = msg.batch :: later := by
    simp [live_some hworkers, liveIn, hreceived]
  obtain ⟨later, hlive⟩ := hlive
  obtain ⟨rest, hrest⟩ := hreach
  exact ⟨later ++ rest, by simp [flight, ← hrest, hlive]⟩

theorem flightBlocks_of_flight {rest : List Batch} {batch : Batch}
    (hflight : flight w = batch :: rest) :
    flightBlocks w = batch.blocks ++ rest.flatMap (·.blocks) := by
  simp [flightBlocks, hflight]

theorem Settled.publish (h : Settled S t w) {db : Db} {t' : BlockTree}
    (hcommitted : S.Committed t' db) (hlonger : t.chain.length ≤ t'.chain.length) :
    Settled S t' (w.publish db) :=
  ⟨hcommitted, by
    change max w.highest db.readDbChainCurrentBlockCount = t'.chain.length
    rw [h.highest, hcommitted.readDbChainCurrentBlockCount, max_eq_right hlonger]⟩

theorem Settled.given (h : Settled S t w) : ∀ block ∈ t.known, block ∈ S.given :=
  h.committed.given

/-- A batch is committed: it leaves the flight for the chain. -/
theorem Grounded.commit (h : Grounded S line fed t next w) (hinv : PipeInv extra w)
    (hworkers : w.workers = some p) {msg : WriterMsg} (hreceived : p.writer = .received msg)
    (hadmits : S.admits w.db (.batch p.mode msg.batch.blocks)) {db : Db}
    (hexecute : executeAll msg.queries.toList w.db = (db, none)) :
    ∃ t', Grounded S line fed t' next
      { (w.publish db).setWriter (.committed msg) p with
        committed := w.committed ++ [msg.batch] } := by
  obtain ⟨rest, hflight⟩ := flight_of_received hinv hworkers hreceived
  obtain ⟨inputsUtxoMap, hqueries⟩ := ((hinv.formed p hworkers).writerReceived msg hreceived).queries
  rw [h.network p hworkers] at hqueries
  have hblocks := flightBlocks_of_flight hflight
  have hextends := h.extends_chain
  rw [hblocks, List.append_assoc] at hextends
  obtain ⟨hbatch, hlater⟩ := extends_append.1 hextends
  have hgiven : ∀ block ∈ msg.batch.blocks, block ∈ S.given := fun block hmem =>
    h.given block (by simp [hblocks, hmem])
  obtain ⟨t', hknown, hchain⟩ :=
    BlockTree.exists_extended S.injective h.committed.given hgiven hbatch
  have hcommitted : S.Committed t' db :=
    .batch p.mode inputsUtxoMap msg.queries msg.batch.blocks h.committed h.ready hgiven hbatch
      hadmits hqueries hexecute hknown hchain
  have hsettled := h.toSettled.publish hcommitted (by simp [hchain])
  have hafter : flightBlocks { (w.publish db).setWriter (.committed msg) p with
      committed := w.committed ++ [msg.batch] } = rest.flatMap (·.blocks) := by
    have hdrop : w.handed.drop (w.committed.length + 1) = rest := by
      rw [← List.drop_drop]
      change (flight w).drop 1 = rest
      rw [hflight, List.drop_one, List.tail_cons]
    simp [flightBlocks, flight, World.setWriter, World.publish, hdrop]
  have hready : db.bulkMode ≠ none := by
    have hsame := (executed (StoredRows.saying_of_fmt (heights_nodup hbatch) hqueries)
      hexecute).bulkMode
    rw [hsame]
    exact h.ready
  exact ⟨t',
    { committed := hcommitted
      highest := hsettled.highest
      ready := hready
      extends_chain := by
        rw [hafter, hchain, idents_append]
        exact hlater
      given := by
        rw [hafter]
        intro block hmem
        apply h.given block
        rw [hblocks, List.append_assoc]
        exact List.mem_append_right _ hmem
      stored := by
        intro batch hmem block hblock
        rw [hknown]
        obtain hold | hnew := List.mem_append.1 hmem
        · exact List.mem_append_left _ (h.stored batch hold block hblock)
        · rw [List.mem_singleton.1 hnew] at hblock
          exact List.mem_append_right _ hblock
      line_eq := by
        rw [hafter, hchain, ← h.line_eq, hblocks]
        simp
      fed_eq := h.fed_eq
      network := fun q hq => by
        obtain rfl := Option.some.inj hq
        exact h.network p hworkers
      blameless := fun q hq error hexit => by
        obtain rfl := Option.some.inj hq
        simp at hexit }⟩

/-- The writer is refused: the committed state keeps its tree. -/
theorem Grounded.refuse (h : Grounded S line fed t next w) (hworkers : w.workers = some p)
    (transaction : Db) {error : SqlError} (herror : S.tolerates error) (failed : List Batch) :
    Grounded S line fed t next
      { (w.publish (w.db.rollback transaction)).setWriter (.exited (.err error)) p with
        failed := failed } where
  committed := .burn transaction h.committed
  highest := (h.toSettled.publish (.burn transaction h.committed) le_rfl).highest
  ready := h.ready
  extends_chain := h.extends_chain
  given := h.given
  stored := h.stored
  line_eq := h.line_eq
  fed_eq := h.fed_eq
  network := fun q hq => by
    obtain rfl := Option.some.inj hq
    exact h.network p hworkers
  blameless := fun q hq other hexit => by
    obtain rfl := Option.some.inj hq
    obtain rfl : error = other := by simpa using hexit
    exact herror

/-- Nothing the tree and the line depend on has changed. -/
theorem Grounded.frame (h : Grounded S line fed t next w) {after : World} (hdb : after.db = w.db)
    (hhighest : after.highest = w.highest) (hhanded : after.handed = w.handed)
    (hcommitted : after.committed = w.committed) (hfed : after.fed = w.fed)
    (hnetwork : ∀ q, after.workers = some q → q.network = S.network)
    (hblameless : Blameless S after) : Grounded S line fed t next after := by
  have hflight : flightBlocks after = flightBlocks w := by
    rw [flightBlocks, flight, hhanded, hcommitted]
    rfl
  exact
    { committed := by rw [hdb]; exact h.committed
      highest := by rw [hhighest]; exact h.highest
      ready := by rw [hdb]; exact h.ready
      extends_chain := by rw [hflight]; exact h.extends_chain
      given := by rw [hflight]; exact h.given
      stored := by rw [hcommitted]; exact h.stored
      line_eq := by rw [hflight]; exact h.line_eq
      fed_eq := by rw [hfed]; exact h.fed_eq
      network := hnetwork
      blameless := hblameless }

/-- The errors of a writer that is refused. -/
theorem Grounded.tolerates (h : Grounded S line fed t next w) (hinv : PipeInv extra w)
    (hworkers : w.workers = some p) {msg : WriterMsg} (hreceived : p.writer = .received msg)
    (hadmits : S.admits w.db (.batch p.mode msg.batch.blocks)) {error : SqlError}
    (herror : error = .failed ∨
      ∃ count, (executeAll (msg.queries.toList.take count) w.db).2 = some error) :
    S.tolerates error := by
  obtain rfl | ⟨count, herror⟩ := herror
  · exact S.failed
  · obtain ⟨rest, hflight⟩ := flight_of_received hinv hworkers hreceived
    obtain ⟨inputsUtxoMap, hqueries⟩ :=
      ((hinv.formed p hworkers).writerReceived msg hreceived).queries
    rw [h.network p hworkers] at hqueries
    have hblocks := flightBlocks_of_flight hflight
    have hextends := h.extends_chain
    rw [hblocks, List.append_assoc] at hextends
    exact S.batch h.committed (fun block hmem => h.given block (by simp [hblocks, hmem]))
      (extends_append.1 hextends).1 hadmits hqueries (executeAll_take _ count _ herror)

/-- Where the writer holds a batch, its commit is admitted. -/
def Admitted (S : Setting) (w : World) : Prop :=
  ∀ p msg, w.workers = some p → p.writer = .received msg →
    S.admits w.db (.batch p.mode msg.batch.blocks)

theorem Grounded.step (h : Grounded S line fed t next w) (hinv : PipeInv extra w)
    {event : WorkerEvent} (hadmitted : ∀ failAt, event = .writer failAt → Admitted S w) :
    ∃ t', Grounded S line fed t' next (w.step event) := by
  cases hworkers : w.workers with
  | none =>
      rw [step_none hworkers]
      exact ⟨t, h⟩
  | some p =>
      have hnetwork := h.network p hworkers
      have hblameless := h.blameless p hworkers
      have htransition := transition_step hworkers event
      generalize w.step event = after at htransition
      cases htransition with
      | stay => exact ⟨t, h⟩
      | committed msg db hreceived hexecute =>
          exact h.commit hinv hworkers hreceived
            (hadmitted _ rfl p msg hworkers hreceived) hexecute
      | refused failAt msg transaction error hreceived herror =>
          exact ⟨t, h.refuse hworkers transaction (h.tolerates hinv hworkers hreceived
            (hadmitted _ rfl p msg hworkers hreceived) herror) _⟩
      | writerDied count hheld hlive =>
          exact ⟨t, h.frame rfl rfl rfl rfl rfl (by simpa [World.setWriter] using hnetwork)
            (by simpa [Blameless, World.setWriter] using S.failed)⟩
      | queriesSent | acknowledged | anyMissing | writerDone =>
          exact ⟨t, h.frame rfl rfl rfl rfl rfl (by simpa [World.setWriter] using hnetwork)
            (by simp [Blameless, World.setWriter])⟩
      | _ =>
          exact ⟨t, h.frame rfl rfl rfl rfl rfl (by simpa using hnetwork)
            (by simpa [Blameless] using hblameless)⟩

/-! ## Accesses of the caller -/

/-- The ids of the blocks still to be handed over are new to the pipeline. -/
theorem Grounded.fresh {blocks : List BlockData} (h : Grounded S line fed t (blocks ++ next) w)
    (hinv : PipeInv [] w) : (w.handed.flatMap Batch.ids ++ blocks.map (·.id)).Nodup := by
  have hmap : ∀ l : List BlockData, (∀ block ∈ l, block ∈ S.given) → l.Nodup →
      (l.map (·.id)).Nodup := fun l hgiven hnodup =>
    hnodup.map_on fun left hleft right hright heq =>
      S.injective (hgiven left hleft) (hgiven right hright) (congrArg hashToHashId heq)
  have hextends := h.extends_chain
  rw [← List.append_assoc] at hextends
  have hpart := (extends_append.1 hextends).1
  have hnodup := hpart.nodup
  have hgiven : ∀ block ∈ flightBlocks w ++ blocks, block ∈ S.given := by
    intro block hmem
    apply h.given block
    rw [← List.append_assoc]
    exact List.mem_append_left _ hmem
  have hblocks : ∀ block ∈ blocks, block ∈ S.given := fun block hmem =>
    hgiven block (List.mem_append_right _ hmem)
  rw [List.nodup_append]
  refine ⟨hinv.distinct, hmap blocks hblocks (List.nodup_append.1 hnodup).2.1, ?_⟩
  intro id hold _ hnew heq
  obtain ⟨block, hblock, rfl⟩ := List.mem_map.1 hnew
  obtain ⟨batch, hbatch, hid⟩ := List.mem_flatMap.1 hold
  obtain ⟨old, hin, hsame⟩ := List.mem_map.1 hid
  have hids : hashToHashId old.id = hashToHashId block.id := congrArg _ (hsame.trans heq)
  obtain ⟨rest, hrest⟩ := hinv.committed_initial
  rw [← hrest] at hbatch
  obtain hcommitted | hflying := List.mem_append.1 hbatch
  · -- a committed block is known, hence below the tip
    have hknown := h.stored batch hcommitted old hin
    obtain rfl := S.injective (h.committed.given old hknown) (hblocks block hblock) hids
    have habove := (hpart.height_bounds (List.mem_append_right _ hblock)).1
    rw [length_idents] at habove
    exact absurd (t.bounded old hknown) (not_lt.2 habove)
  · have hflight : old ∈ flightBlocks w := by
      have heq : flight w = rest := by rw [flight, ← hrest, List.drop_left]
      exact List.mem_flatMap.2 ⟨batch, heq ▸ hflying, hin⟩
    obtain rfl := S.injective (hgiven old (List.mem_append_left _ hflight))
      (hblocks block hblock) hids
    exact (List.nodup_append.1 hnodup).2.2 old hflight old hblock rfl

theorem Grounded.handOver {batch : Batch}
    (h : Grounded S line fed t (batch.blocks ++ next) w) (hinv : PipeInv extra w)
    (hworkers : w.workers = some p) :
    Grounded S line fed t next (handOver batch p w) := by
  obtain ⟨rest, hrest⟩ := hinv.committed_initial
  have hflight : flightBlocks (Pipeline.handOver batch p w) = flightBlocks w ++ batch.blocks := by
    simp [flightBlocks, flight, Pipeline.handOver, ← hrest]
  exact
    { committed := h.committed
      highest := h.highest
      ready := h.ready
      extends_chain := by
        rw [hflight, List.append_assoc]
        exact h.extends_chain
      given := by
        rw [hflight, List.append_assoc]
        exact h.given
      stored := h.stored
      line_eq := by
        rw [hflight, List.append_assoc]
        exact h.line_eq
      fed_eq := h.fed_eq
      network := fun q hq => by
        obtain rfl := Option.some.inj hq
        exact h.network p hworkers
      blameless := fun q hq error hexit => by
        obtain rfl := Option.some.inj hq
        exact h.blameless p hworkers error hexit }

/-- The committed state is replaced by one that shows the same tree. -/
theorem Grounded.publish (h : Grounded S line fed t next w) {db : Db}
    (hcommitted : S.Committed t db) (hready : db.bulkMode ≠ none) :
    Grounded S line fed t next (w.publish db) where
  committed := hcommitted
  highest := (h.toSettled.publish hcommitted le_rfl).highest
  ready := hready
  extends_chain := h.extends_chain
  given := h.given
  stored := h.stored
  line_eq := h.line_eq
  fed_eq := h.fed_eq
  network := h.network
  blameless := h.blameless

/-- Blocks that continue the line join those to be handed over. -/
theorem Grounded.grow (h : Grounded S line fed t next w) {blocks : List BlockData}
    (hgiven : ∀ block ∈ blocks, block ∈ S.given) (hextends : Extends line blocks) :
    Grounded S (line ++ idents blocks) fed t (next ++ blocks) w where
  toSettled := h.toSettled
  ready := h.ready
  extends_chain := by
    rw [← List.append_assoc]
    exact extends_append.2 ⟨h.extends_chain, h.line_eq ▸ hextends⟩
  given := by
    intro block hmem
    rw [← List.append_assoc] at hmem
    obtain hold | hnew := List.mem_append.1 hmem
    · exact h.given block hold
    · exact hgiven block hnew
  stored := h.stored
  line_eq := by
    rw [← List.append_assoc, idents_append, ← List.append_assoc, h.line_eq]
  fed_eq := h.fed_eq
  network := h.network
  blameless := h.blameless

/-- Without workers, everything on the line is committed. -/
theorem Grounded.chain_eq (h : Grounded S line fed t [] w) (hinv : PipeInv [] w)
    (hworkers : w.workers = none) : idents t.chain = line := by
  have hflight : flightBlocks w = [] := by
    simp [flightBlocks, flight, (hinv.settled hworkers).1]
  have hline := h.line_eq
  rw [hflight] at hline
  simpa using hline

end BitcoinIndexer.Grounding
