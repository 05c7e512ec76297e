import BitcoinIndexer.Chain.Opening
import BitcoinIndexer.Chain.Schedules

/-!
# What the stored chain guarantees

Every run on blocks in the prefetcher's order, with the workers interleaved in any way
and with crashes and failing statements anywhere: the store follows what it is given,
the stored chain is whole and never shrinks, and the event log replays to it.
-/

namespace BitcoinIndexer.Guarantees

open BitcoinIndexer.Types
open BitcoinIndexer.Tables
open BitcoinIndexer.CancelingLog
open BitcoinIndexer.ReferenceChain
open BitcoinIndexer.Representation
open BitcoinIndexer.Worker
open BitcoinIndexer.Store
open BitcoinIndexer.Pipeline
open BitcoinIndexer.ChainState
open BitcoinIndexer.Grounding
open BitcoinIndexer.Following
open BitcoinIndexer.Opening
open BitcoinIndexer.Schedules
open BitcoinIndexer.Interleaving

/-- Any blocks whose ids determine them, any commit, any error. -/
def unrestricted (given : Set BlockData) (injective : Set.InjOn BlockData.hashId given)
    (network : Network) : Setting where
  given := given
  injective := injective
  network := network
  admits := fun _ _ => True
  tolerates := fun _ => True
  failed := trivial
  batch := fun _ _ _ _ _ _ => trivial
  reorg := fun _ _ _ _ _ _ _ _ => trivial
  schema := fun _ _ => trivial

variable {given : Set BlockData} {injective : Set.InjOn BlockData.hashId given}
variable {network : Network} {S : Setting} {w : World} {t : BlockTree}

/-! ## Following the prefetcher -/

/-- The assertions of the store's own functions, as opposed to those of the formatter
and to those that report a dead worker. -/
def ownAssertions : List Panic :=
  [.heightHole, .blockNotIndexed, .batchNotEmpty, .notInReorg, .contiguity, .notExtinct,
    .emptyBatch, .debugAssert, .hashParts, .countsDiffer, .notFresh, .inFlightLeft, .noWorkers]

theorem Excused.not_own {reason : Panic} (h : Excused S w (.panicked reason)) :
    reason ∉ ownAssertions ∧
      (reason = .sendFailed ∨ reason = .workerDied → ¬ healthy w) := by
  cases h with
  | sendFailed hunhealthy => exact ⟨by decide, fun _ => hunhealthy⟩
  | workerDied hunhealthy => exact ⟨by decide, fun _ => hunhealthy⟩
  | format reason => exact ⟨by simp [ownAssertions], by simp⟩
  | fetchedCount => exact ⟨by decide, by simp⟩

/-- The committed chain, the blocks in flight and the batch. -/
def wholeLine (store : IndexerStore) (w : World) : List BlockHash :=
  w.db.chain ++ idents (flightBlocks w ++ store.batch)

theorem AtTip.wholeLine_eq {line : List BlockHash} {store : IndexerStore}
    (h : AtTip S line store w) : wholeLine store w = line := by
  obtain ⟨-, t, hgrounded⟩ := h.at_view
  rw [wholeLine, hgrounded.committed.chain_eq, hgrounded.line_eq]

/-- What the caller has been given, in terms of the store and the database. -/
theorem followed {store : IndexerStore} (h : Idle S store w) :
    (store.isInReorg = false → w.fed <+: wholeLine store w ∧
      (wholeLine store w).length = store.chainBlockCount) ∧
    (store.isInReorg = true → ∃ base,
      store.pendingReorg.keys = List.range' base store.pendingReorg.len ∧
      w.fed = w.db.chain.take base ++ idents store.pendingReorg.values ∧
      base + store.pendingReorg.len ≤ w.db.chain.length ∧
      w.db.chain.length = store.chainBlockCount ∧ store.batch = [] ∧ flightBlocks w = []) := by
  obtain ⟨line, htip⟩ | ⟨line, base, pending, hreorg⟩ := h
  · refine ⟨fun _ => ?_, fun hreorg => ?_⟩
    · rw [AtTip.wholeLine_eq htip]
      exact ⟨htip.fed_initial, htip.count.symm⟩
    · rw [htip.isInReorg] at hreorg
      exact absurd hreorg (by simp)
  · refine ⟨fun hout => ?_, fun _ => ?_⟩
    · rw [hreorg.isInReorg] at hout
      exact absurd hout (by simp)
    · obtain ⟨hinv, t, hgrounded⟩ := hreorg.at_view
      have hchain : w.db.chain = line := by
        rw [hgrounded.committed.chain_eq, hgrounded.chain_eq hinv hreorg.stopped]
      have hkeys : store.pendingReorg.keys = pending.map (·.height) := by
        simp [OrderedMap.BTreeMap.keys, hreorg.entries, byHeight, Function.comp_def]
      have hvalues : store.pendingReorg.values = pending := by
        simp [OrderedMap.BTreeMap.values, hreorg.entries, byHeight, Function.comp_def]
      have hlen : store.pendingReorg.len = pending.length := by
        simp [OrderedMap.BTreeMap.len, hreorg.entries, byHeight]
      have hheights : pending.map (·.height) = List.range' base pending.length := by
        have hmap : pending.map (·.height) =
            List.range' (line.take base).length pending.length := hreorg.extends_base.map_height
        rwa [List.length_take, Nat.min_eq_left hreorg.base_le] at hmap
      have hflight : flightBlocks w = [] := by
        simp [flightBlocks, flight, (hinv.settled hreorg.stopped).1]
      rw [hkeys, hvalues, hlen, hchain]
      exact ⟨base, hheights, hreorg.fed_eq, hreorg.below, hreorg.count.symm, hreorg.batch, hflight⟩

/-- No assertion of the store fails, and between two calls what the caller has been
given is a prefix of the line or, in a reorg, the line below the pending blocks followed
by them. -/
theorem store_follows_prefetcher (given : Set BlockData)
    (injective : Set.InjOn BlockData.hashId given) (network : Network)
    (labels : List StoreLabel)
    (hfollows : (prefetched (unrestricted given injective network)).follows system labels
      initial) :
    let c := system.run labels initial
    (∀ reason, c.prog = .halt (.panicked reason) → reason ∉ ownAssertions ∧
      (reason = .sendFailed ∨ reason = .workerDied → ¬ healthy c.shared)) ∧
    (c.prog = .pure () →
      (c.locals.isInReorg = false → c.shared.fed <+: wholeLine c.locals c.shared ∧
        (wholeLine c.locals c.shared).length = c.locals.chainBlockCount) ∧
      (c.locals.isInReorg = true → ∃ base,
        c.locals.pendingReorg.keys = List.range' base c.locals.pendingReorg.len ∧
        c.shared.fed = c.shared.db.chain.take base ++ idents c.locals.pendingReorg.values ∧
        base + c.locals.pendingReorg.len ≤ c.shared.db.chain.length ∧
        c.shared.db.chain.length = c.locals.chainBlockCount ∧ c.locals.batch = [] ∧
        flightBlocks c.shared = [])) := by
  intro c
  have hsafe := safe_run (unrestricted given injective network) labels hfollows
  refine ⟨fun reason hhalted => ?_, fun hreturned => ?_⟩
  · change SafeConfig _ _ _ _ _ c at hsafe
    rw [SafeConfig, hhalted] at hsafe
    exact Excused.not_own hsafe.2
  · change SafeConfig _ _ _ _ _ c at hsafe
    rw [SafeConfig, hreturned] at hsafe
    exact followed hsafe

/-- Two blocks, a reorg that replaces the second one, and one that brings it back. -/
def flipped : List BlockData :=
  [blockAt 0 1 0, blockAt 1 2 1, blockAt 1 3 1, blockAt 2 4 3, blockAt 1 2 1, blockAt 2 5 2,
    blockAt 3 6 5]

theorem flipped_injective : Set.InjOn BlockData.hashId {block | block ∈ flipped} := by
  have hpairs : ∀ left ∈ flipped, ∀ right ∈ flipped, left.hashId = right.hashId →
      left = right := by decide
  exact fun left hleft right hright heq => hpairs left hleft right hright heq

@[irreducible]
def flipping : List StoreLabel :=
  opening 0 .bitcoin ++ flipped.flatMap fun block => calling (.insert block) 30

instance : DecidablePred (· ∈ (unrestricted {block | block ∈ flipped} flipped_injective
    .bitcoin).given) := fun block => inferInstanceAs (Decidable (block ∈ flipped))

instance (db : Db) (commit : Commit) : Decidable ((unrestricted given injective network).admits
    db commit) := inferInstanceAs (Decidable True)

theorem flipping_follows : (prefetched (unrestricted {block | block ∈ flipped} flipped_injective
    .bitcoin)).follows system flipping initial :=
  follows_of_check flipping initial (by decide +kernel)

theorem flipping_followed :
    let c := system.run flipping initial
    c.locals.chainBlockCount = 4 ∧ (wholeLine c.locals c.shared).length = 4 := by
  have hfollowed := store_follows_prefetcher {block | block ∈ flipped} flipped_injective .bitcoin
    flipping flipping_follows
  have hreturned : (system.run flipping initial).prog = .pure () :=
    eq_pure_of_returned (by decide +kernel)
  have hcount : (system.run flipping initial).locals.chainBlockCount = 4 := by decide +kernel
  have htip : (system.run flipping initial).locals.isInReorg = false := by decide +kernel
  exact ⟨hcount, ((hfollowed.2 hreturned).1 htip).2.trans hcount⟩

/-! ## The stored chain -/

/-- The rows that are not extinct. -/
def standing (db : Db) : List BlockRow := db.block.filter fun row => row.extinct = false

/-- One block for each height below the count, linked to the one below it, and none
stored above them. -/
structure Whole (db : Db) : Prop where
  heights : ((standing db).map (·.height)).Perm (List.range db.readDbChainCurrentBlockCount)
  linked : ∀ above ∈ standing db, 0 < above.height → ∃ below ∈ standing db,
    below.height + 1 = above.height ∧ above.prevHashId = below.hashId
  counts : db.readDbChainBlockCount = db.readDbChainCurrentBlockCount

/-- The standing rows are those of the chain. -/
theorem standing_perm (h : Shows t.known t.chain w.db) :
    (standing w.db).Perm (t.chain.map (rowIn t.chain)) := by
  have hfilter : standing w.db = (t.known.filter fun block => decide (block ∈ t.chain)).map
      (rowIn t.chain) := by
    rw [standing, h.rows, List.filter_map]
    congr 2
    funext block
    simp [rowIn]
  rw [hfilter]
  apply List.Perm.map
  apply (List.perm_ext_iff_of_nodup (t.nodup_known.filter _) t.linked.nodup).2
  intro block
  simp only [List.mem_filter, decide_eq_true_eq]
  exact ⟨fun hmem => hmem.2, fun hmem => ⟨t.stored block hmem, hmem⟩⟩

theorem exists_below {chain : List BlockData} (hlinked : Extends [] chain) {block : BlockData}
    (hmem : block ∈ chain) (hpos : 0 < block.height) :
    ∃ below ∈ chain, below.height + 1 = block.height ∧
      below.id = block.data.header.prevBlockhash := by
  obtain ⟨left, right, rfl⟩ := List.append_of_mem hmem
  obtain ⟨hleft, ⟨hheight, hprev⟩, -⟩ := extends_append.1 hlinked
  have hget := hprev hpos
  rw [List.nil_append, idents, List.getElem?_map] at hget
  obtain ⟨below, hbelow, hid⟩ := Option.map_eq_some_iff.1 hget
  have hlow := height_of_getElem hleft hbelow
  refine ⟨below, List.mem_append_left _ (List.mem_of_getElem? hbelow), ?_, hid⟩
  rw [hlow]
  exact Nat.sub_add_cancel hpos

theorem Settled.whole (h : Settled S t w) : Whole w.db where
  heights := by
    have hmap : t.chain.map (·.height) = List.range t.chain.length := by
      rw [List.range_eq_range']
      exact t.linked.map_height
    rw [h.committed.readDbChainCurrentBlockCount, ← hmap]
    have hperm := (standing_perm h.committed.shows).map (·.height)
    rwa [List.map_map] at hperm
  linked := by
    have hperm := standing_perm h.committed.shows
    intro above habove hpos
    obtain ⟨block, hblock, rfl⟩ := List.mem_map.1 (hperm.subset habove)
    obtain ⟨below, hbelow, hheight, hid⟩ := exists_below t.linked hblock hpos
    refine ⟨rowIn t.chain below, hperm.symm.subset (List.mem_map_of_mem hbelow), hheight, ?_⟩
    change hashToHashId block.data.header.prevBlockhash = hashToHashId below.id
    rw [hid]
  counts := by
    rw [h.committed.readDbChainBlockCount, h.committed.readDbChainCurrentBlockCount]

/-! ### The largest count never decreases -/

theorem highest_abort (w : World) : w.highest ≤ (abort w).highest := by
  cases htxn : w.txn <;> simp [abort, htxn]

theorem highest_exec {β : Type} (access : Act β) (fails : Bool) (w : World) :
    w.highest ≤ ((exec access fails w).after w).highest := by
  have haccessed := accessed_exec access fails w
  generalize (exec access fails w).after w = after at haccessed
  cases haccessed with
  | executed | committed => exact le_max_left _ _
  | aborted => exact highest_abort w
  | _ => exact le_rfl

theorem highest_step (event : WorkerEvent) (w : World) : w.highest ≤ (w.step event).highest := by
  cases hworkers : w.workers with
  | none => rw [step_none hworkers]
  | some p =>
      have htransition := transition_step hworkers event
      generalize w.step event = after at htransition
      cases htransition with
      | committed | refused => exact le_max_left _ _
      | _ => exact le_rfl

theorem highest_run (labels : List StoreLabel) (c : StoreConfig) :
    c.shared.highest ≤ (system.run labels c).shared.highest := by
  apply system.run_monotone World.highest highest_exec highest_step
  intro call w
  cases call with
  | start nodeChainHeadHeight network resume => exact highest_abort w
  | _ => exact le_rfl

/-- Every committed state shows a whole chain, and no later one shows a shorter chain. -/
theorem stored_chain_whole_and_growing (given : Set BlockData)
    (injective : Set.InjOn BlockData.hashId given) (network : Network)
    (labels more : List StoreLabel)
    (hfollows : (prefetched (unrestricted given injective network)).follows system
      (labels ++ more) initial) :
    let before := (system.run labels initial).shared.db
    let after := (system.run (labels ++ more) initial).shared.db
    Whole before ∧ Whole after ∧
      before.readDbChainCurrentBlockCount ≤ after.readDbChainCurrentBlockCount := by
  have hlabels := ((Discipline.follows_append system _ labels more initial).1 hfollows).1
  obtain ⟨t, hbefore⟩ := (kept_run _ labels hlabels).settled
  obtain ⟨t', hafter⟩ := (kept_run _ (labels ++ more) hfollows).settled
  refine ⟨Settled.whole hbefore, Settled.whole hafter, ?_⟩
  rw [hbefore.committed.readDbChainCurrentBlockCount, hafter.committed.readDbChainCurrentBlockCount,
    ← hbefore.highest, ← hafter.highest, System.run_append]
  exact highest_run more _

/-- Cut in the middle of the first reorg: the chain stays as it was. -/
theorem interrupted_whole_and_growing :
    Whole (system.run (flipping.take 400) initial).shared.db ∧
      (system.run (flipping.take 400) initial).shared.db.readDbChainCurrentBlockCount ≤
        (system.run flipping initial).shared.db.readDbChainCurrentBlockCount := by
  have hsplit : flipping.take 400 ++ flipping.drop 400 = flipping := List.take_append_drop _ _
  have hfollows := flipping_follows
  rw [← hsplit] at hfollows
  have hgrowing := stored_chain_whole_and_growing {block | block ∈ flipped} flipped_injective
    .bitcoin (flipping.take 400) (flipping.drop 400) hfollows
  rw [hsplit] at hgrowing
  exact ⟨hgrowing.1, hgrowing.2.2⟩

/-! ## The event log -/

def inIdOrder (events : List EventRow) : List EventRow :=
  events.insertionSort fun left right => left.id ≤ right.id

def inHeightOrder (rows : List BlockRow) : List BlockRow :=
  rows.insertionSort fun left right => left.height ≤ right.height

/-- A reader may put a block on its predecessor, or one of height 0 on nothing. -/
def Stacks (db : Db) (stack : List HashId) (hashId : HashId) : Prop :=
  ∃ row ∈ db.block, row.hashId = hashId ∧
    (row.height = 0 ∧ stack = [] ∨ stack.getLast? = some row.prevHashId)

theorem inIdOrder_eq {known : List BlockData} {stack : List HashId} {db : Db}
    (h : Logged known stack db) : inIdOrder db.event = db.event :=
  List.Pairwise.insertionSort_eq (h.ascending.imp fun hlt => hlt.le)

theorem inHeightOrder_standing (h : Settled S t w) :
    inHeightOrder (standing w.db) = t.chain.map (rowIn t.chain) := by
  have hperm := standing_perm h.committed.shows
  have hsorted : (t.chain.map (rowIn t.chain)).Pairwise fun left right =>
      left.height ≤ right.height :=
    List.pairwise_map.2 (t.linked.sorted.imp fun hlt => hlt.le)
  apply List.Perm.eq_of_pairwise _ (List.pairwise_insertionSort _ _) hsorted
    ((List.perm_insertionSort _ _).trans hperm)
  intro left right hleft hright hle hge
  replace hleft := hperm.mem_iff.1 ((List.mem_insertionSort _).1 hleft)
  obtain ⟨leftBlock, hleftMem, rfl⟩ := List.mem_map.1 hleft
  obtain ⟨rightBlock, hrightMem, rfl⟩ := List.mem_map.1 hright
  rw [eq_of_height t.linked hleftMem hrightMem (le_antisymm hle hge)]

theorem stacks_of_links (h : Shows t.known t.chain w.db) {stack : List HashId} {name : HashId}
    (hlinks : Links t.known stack name) : Stacks w.db stack name := by
  obtain ⟨block, hmem, hname, hlink⟩ := hlinks
  refine ⟨rowIn t.chain block, ?_, hname, hlink⟩
  rw [h.rows]
  exact List.mem_map_of_mem hmem

/-- Every committed state: the log, read in the order of its ids, replays to the blocks
that are not extinct, in the order of their heights. -/
theorem event_log_replays (given : Set BlockData) (injective : Set.InjOn BlockData.hashId given)
    (network : Network) (labels : List StoreLabel)
    (hfollows : (prefetched (unrestricted given injective network)).follows system labels
      initial) :
    let db := (system.run labels initial).shared.db
    Replays (Stacks db) ((inIdOrder db.event).map entryOf) []
      ((inHeightOrder (standing db)).map (·.hashId)) := by
  intro db
  obtain ⟨t, hsettled⟩ := (kept_run _ labels hfollows).settled
  have hshows := hsettled.committed.shows
  have hfinal : (inHeightOrder (standing db)).map (·.hashId) = hashIds t.chain := by
    rw [inHeightOrder_standing hsettled, List.map_map]
    rfl
  rw [inIdOrder_eq hshows.logged, hfinal]
  exact hshows.logged.log.mono fun _ _ hlinks => stacks_of_links hshows hlinks

theorem flipping_replays :
    (system.run flipping initial).shared.db.event.length = 10 ∧
      Replays (Stacks (system.run flipping initial).shared.db)
        ((inIdOrder (system.run flipping initial).shared.db.event).map entryOf) []
        ((inHeightOrder (standing (system.run flipping initial).shared.db)).map (·.hashId)) := by
  have hreplays := event_log_replays {block | block ∈ flipped} flipped_injective .bitcoin flipping
    flipping_follows
  have hlength : (system.run flipping initial).shared.db.event.length = 10 := by decide +kernel
  exact ⟨hlength, hreplays⟩

end BitcoinIndexer.Guarantees
