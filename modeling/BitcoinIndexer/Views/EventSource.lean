import BitcoinIndexer.Chain.EventLog
import BitcoinIndexer.Core.Joins
import BitcoinIndexer.Core.Polling
import BitcoinIndexer.Node.Prefetcher

/-!
# Following the event log

`EventSource::next` returns the events behind a cursor with their blocks.  A subscriber
polls with the cursor it was given last, between any two steps of the indexer; what it
has received is the beginning of the log, event by event.
-/

namespace BitcoinIndexer.EventSource

open BitcoinIndexer.Types
open BitcoinIndexer.Tables
open BitcoinIndexer.Joins
open BitcoinIndexer.Polling
open BitcoinIndexer.CancelingLog
open BitcoinIndexer.Representation
open BitcoinIndexer.Worker
open BitcoinIndexer.Store
open BitcoinIndexer.ChainState
open BitcoinIndexer.Grounding
open BitcoinIndexer.Following
open BitcoinIndexer.Opening
open BitcoinIndexer.Schedules
open BitcoinIndexer.Guarantees
open BitcoinIndexer.EventLog
open BitcoinIndexer.Interleaving
open BitcoinIndexer.Node (WithHeightAndId)

/-! ## One poll -/

/-- `limit as i64`. -/
def asI64 (limit : UInt64) : ℤ := limit.toBitVec.toInt

/-- `FROM event JOIN block ON event.block_hash_id = block.hash_id`. -/
def eventBlocks (db : Db) : List (EventRow × BlockRow) :=
  join (fun event block => event.blockHashId = block.hashId) db.event db.block

/-- `WHERE event.id > $1 ORDER BY id ASC LIMIT $2`; a negative limit is refused. -/
def selectEvents (cursor : ℤ) (limit : UInt64) (db : Db) :
    Except SqlError (List (EventRow × BlockRow)) :=
  if asI64 limit < 0 then .error .failed
  else
    .ok (((rowsAfter (fun row => row.1.id) cursor (eventBlocks db)).insertionSort fun left right =>
      left.1.id ≤ right.1.id).take (asI64 limit).toNat)

/-- The loop over the rows, with what has been pushed and the last id. -/
def readRows : List (EventRow × BlockRow) → List (WithHeightAndId BlockHash Bool) → ℤ →
    Except Halt (List (WithHeightAndId BlockHash Bool) × ℤ)
  | [], res, last => .ok (res, last)
  | (event, block) :: rows, res, _ =>
      match hashIdAndRestToHash block.hashId block.hashRest with
      | none => .error (.panicked .hashParts)
      | some hash => readRows rows (res ++ [⟨block.height, hash, event.revert⟩]) event.id

def next (cursor : Option ℤ) (limit : UInt64) (db : Db) :
    Except Halt (List (WithHeightAndId BlockHash Bool) × ℤ) :=
  let cursor := cursor.getD (-1)
  match selectEvents cursor limit db with
  | .error error => .error (.err error)
  | .ok rows => readRows rows [] cursor

/-! ## Subscribers -/

/-- The cursor a subscriber was given last, and all it has been given. -/
structure Subscriber where
  cursor : Option ℤ
  received : List (WithHeightAndId BlockHash Bool)
  deriving DecidableEq

/-- A call that fails leaves the subscriber where it is. -/
def Subscriber.poll (limit : UInt64) (fails : Bool) (db : Db) (subscriber : Subscriber) :
    Subscriber :=
  if fails then subscriber
  else
    match next subscriber.cursor limit db with
    | .ok (items, last) => ⟨some last, subscriber.received ++ items⟩
    | .error _ => subscriber

/-- A step of the indexer or a call of the subscriber. -/
inductive Moment where
  | indexer (label : StoreLabel)
  | poll (limit : UInt64) (fails : Bool)

def watch : List Moment → StoreConfig → Subscriber → StoreConfig × Subscriber
  | [], c, subscriber => (c, subscriber)
  | .indexer label :: moments, c, subscriber => watch moments (system.next label c) subscriber
  | .poll limit fails :: moments, c, subscriber =>
      watch moments c (subscriber.poll limit fails c.shared.db)

def labelsOf (moments : List Moment) : List StoreLabel :=
  moments.filterMap fun
    | .indexer label => some label
    | .poll _ _ => none

theorem watch_append (moments more : List Moment) (c : StoreConfig) (subscriber : Subscriber) :
    watch (moments ++ more) c subscriber =
      watch more (watch moments c subscriber).1 (watch moments c subscriber).2 := by
  induction moments generalizing c subscriber with
  | nil => rfl
  | cons moment moments ih =>
      cases moment with
      | indexer label => exact ih _ _
      | poll limit fails => exact ih _ _

/-- A subscriber does not disturb the indexer. -/
theorem config_watch (moments : List Moment) (c : StoreConfig) (subscriber : Subscriber) :
    (watch moments c subscriber).1 = system.run (labelsOf moments) c := by
  induction moments generalizing c subscriber with
  | nil => rfl
  | cons moment moments ih =>
      cases moment with
      | indexer label => exact ih _ _
      | poll limit fails => exact ih _ _

/-- A subscriber that has not called yet. -/
def Subscriber.new : Subscriber := ⟨none, []⟩

/-! ## What a poll returns -/

/-- An item tells of an event: the height and the id of its block, and whether it reverts. -/
def Announces (given : Set BlockData) (event : EventRow)
    (item : WithHeightAndId BlockHash Bool) : Prop :=
  ∃ block ∈ given, block.hashId = event.blockHashId ∧ item = ⟨block.height, block.id, event.revert⟩

variable {S : Setting} {t : BlockTree} {db : Db} {given : Set BlockData}

/-- What is known of the two tables that are joined. -/
structure Readable (given : Set BlockData) (db : Db) : Prop where
  ascending : Ascending EventRow.id db.event
  partner : ∀ event ∈ db.event, ∃ row, db.block.filter (fun row => event.blockHashId = row.hashId) = [row]
  blocks : ∀ row ∈ db.block, ∃ block ∈ given, row.hashId = block.hashId ∧
    row.hashRest = hashRest block.id ∧ row.height = block.height

theorem name_known {known : List BlockData} {stack : List HashId} (h : Logged known stack db) :
    ∀ event ∈ db.event, event.blockHashId ∈ known.map BlockData.hashId := by
  intro event hmem
  apply h.log.forall_names _ (by simp) (entryOf event) (List.mem_map_of_mem hmem)
  rintro _ _ ⟨block, hblock, rfl, -⟩
  exact List.mem_map_of_mem hblock

theorem Settled.readable {w : World} (h : Settled S t w) : Readable S.given w.db where
  ascending := h.committed.shows.logged.ascending
  partner := by
    intro event hmem
    obtain ⟨block, hblock, hname⟩ := List.mem_map.1 (name_known h.committed.shows.logged event hmem)
    refine ⟨rowIn t.chain block, ?_⟩
    rw [h.committed.shows.rows, List.filter_map, ← hname]
    have hfilter := filter_hashId t.distinct hblock
    simp only [eq_comm (b := block.hashId)] at hfilter
    exact congrArg (List.map (rowIn t.chain)) hfilter
  blocks := by
    intro row hmem
    rw [h.committed.shows.rows] at hmem
    obtain ⟨block, hblock, rfl⟩ := List.mem_map.1 hmem
    exact ⟨block, h.given block hblock, rfl, rfl, rfl⟩

theorem Readable.map_fst (h : Readable given db) : (eventBlocks db).map Prod.fst = db.event :=
  map_fst_join h.partner

/-- The joined rows have the order of the log. -/
theorem Readable.ascending_blocks (h : Readable given db) :
    Ascending (fun row : EventRow × BlockRow => row.1.id) (eventBlocks db) := by
  have hmap := h.ascending
  rwa [← h.map_fst, Ascending, List.pairwise_map] at hmap

theorem asI64_eq {limit : UInt64} (h : limit.toNat < 2 ^ 63) : asI64 limit = limit.toNat := by
  have hlt : 2 * limit.toBitVec.toNat < 2 ^ 64 := by
    rw [UInt64.toNat_toBitVec]
    omega
  rw [asI64, BitVec.toInt_eq_toNat_of_lt hlt, UInt64.toNat_toBitVec]

/-- A cursor behind `count` events selects those that follow them. -/
theorem Readable.selectEvents (h : Readable given db) {count : ℕ} {cursor : ℤ}
    (hcursor : cursor = position EventRow.id (db.event.take count)) {limit : UInt64} :
    selectEvents cursor limit db = if asI64 limit < 0 then .error .failed
      else .ok (((eventBlocks db).drop count).take (asI64 limit).toNat) := by
  have hposition : cursor = position (fun row => row.1.id) ((eventBlocks db).take count) := by
    rw [hcursor, ← h.map_fst, ← List.map_take, position_map]
    rfl
  have hsorted : ((eventBlocks db).drop count).insertionSort (fun left right =>
      left.1.id ≤ right.1.id) = (eventBlocks db).drop count := by
    apply List.Pairwise.insertionSort_eq
    exact (h.ascending_blocks.sublist (List.drop_sublist _ _)).imp fun hlt => hlt.le
  rw [EventSource.selectEvents, hposition, rowsAfter_take h.ascending_blocks, hsorted]

/-- Every row can be read. -/
theorem readRows_ok {rows : List (EventRow × BlockRow)}
    (h : ∀ row ∈ rows, ∃ block ∈ given, row.1.blockHashId = block.hashId ∧
      row.2.hashId = block.hashId ∧ row.2.hashRest = hashRest block.id ∧
        row.2.height = block.height)
    (res : List (WithHeightAndId BlockHash Bool)) (last : ℤ) :
    ∃ items, readRows rows res last =
        .ok (res ++ items, (rows.getLast?.map fun row => (row.1.id : ℤ)).getD last) ∧
      List.Forall₂ (Announces given) (rows.map Prod.fst) items := by
  induction rows generalizing res last with
  | nil => exact ⟨[], by rw [readRows, List.append_nil]; rfl, .nil⟩
  | cons row rows ih =>
      obtain ⟨event, found⟩ := row
      obtain ⟨block, hgiven, hname, hhashId, hhashRest, hheight⟩ := h _ List.mem_cons_self
      have hhash : hashIdAndRestToHash found.hashId found.hashRest = some block.id := by
        rw [hhashId, hhashRest]
        exact hashIdAndRestToHash_parts block.id
      obtain ⟨items, hread, hitems⟩ := ih (fun other hmem => h other (List.mem_cons_of_mem _ hmem))
        (res ++ [⟨found.height, block.id, event.revert⟩]) event.id
      refine ⟨⟨found.height, block.id, event.revert⟩ :: items, ?_, ?_⟩
      · rw [readRows, hhash]
        simp only [hread, List.append_assoc, List.singleton_append, List.getLast?_cons]
        cases rows.getLast? <;> rfl
      · rw [List.map_cons]
        exact .cons ⟨block, hgiven, hname.symm, by rw [hheight]⟩ hitems

/-- What a subscriber has received is the beginning of the log, and its cursor is behind it. -/
structure Abreast (given : Set BlockData) (log : List EventRow) (count : ℕ)
    (subscriber : Subscriber) : Prop where
  bounded : count ≤ log.length
  received : List.Forall₂ (Announces given) (log.take count) subscriber.received
  cursor : subscriber.cursor.getD (-1) = position EventRow.id (log.take count)

/-- A poll returns the events that follow, as many as it may. -/
theorem Readable.next (h : Readable given db) {count : ℕ} {subscriber : Subscriber}
    (hread : Abreast given db.event count subscriber) {limit : UInt64} (hlimit : 0 ≤ asI64 limit) :
    ∃ items last, next subscriber.cursor limit db = .ok (items, last) ∧
      items.length = min (asI64 limit).toNat (db.event.length - count) ∧
      Abreast given db.event (min (count + (asI64 limit).toNat) db.event.length)
        ⟨some last, subscriber.received ++ items⟩ := by
  have hmap : (((eventBlocks db).drop count).take (asI64 limit).toNat).map Prod.fst =
      (db.event.drop count).take (asI64 limit).toNat := by
    rw [List.map_take, List.map_drop, h.map_fst]
  have htake : db.event.take (min (count + (asI64 limit).toNat) db.event.length) =
      db.event.take count ++ (db.event.drop count).take (asI64 limit).toNat := by
    rw [← List.take_eq_take_min, List.take_add]
  have hrow : ∀ row ∈ ((eventBlocks db).drop count).take (asI64 limit).toNat, ∃ block ∈ given,
      row.1.blockHashId = block.hashId ∧ row.2.hashId = block.hashId ∧
        row.2.hashRest = hashRest block.id ∧ row.2.height = block.height := by
    intro row hmem
    have hjoined := mem_join.1 (List.mem_of_mem_drop (List.mem_of_mem_take hmem))
    obtain ⟨block, hgiven, hhashId, hrest⟩ := h.blocks row.2 hjoined.2.1
    exact ⟨block, hgiven, (of_decide_eq_true hjoined.2.2).trans hhashId, hhashId, hrest⟩
  obtain ⟨items, hitems, hannounced⟩ := readRows_ok hrow [] (subscriber.cursor.getD (-1))
  rw [List.nil_append] at hitems
  rw [hmap] at hannounced
  have hnext : EventSource.next subscriber.cursor limit db =
      readRows (((eventBlocks db).drop count).take (asI64 limit).toNat) []
        (subscriber.cursor.getD (-1)) := by
    rw [EventSource.next, h.selectEvents hread.cursor, if_neg (not_lt.2 hlimit)]
  refine ⟨items, _, hnext.trans hitems, ?_, min_le_right _ _, ?_, ?_⟩
  · rw [← hannounced.length_eq, List.length_take, List.length_drop]
  · rw [htake]
    exact List.rel_append hread.received hannounced
  · rw [htake, position_append, Option.getD_some, hread.cursor, ← hmap, List.getLast?_map,
      Option.map_map]
    rfl

/-- The log may have grown since. -/
theorem Abreast.grow {log more : List EventRow} {count : ℕ} {subscriber : Subscriber}
    (h : Abreast given log count subscriber) (hgrown : log <+: more) :
    Abreast given more count subscriber where
  bounded := h.bounded.trans hgrown.length_le
  received := by
    rw [take_of_initial hgrown h.bounded]
    exact h.received
  cursor := by
    rw [take_of_initial hgrown h.bounded]
    exact h.cursor

theorem Abreast.poll (hreadable : Readable given db) {count : ℕ} {subscriber : Subscriber}
    (h : Abreast given db.event count subscriber) (limit : UInt64) (fails : Bool) :
    ∃ count', Abreast given db.event count' (subscriber.poll limit fails db) := by
  cases fails with
  | true => exact ⟨count, h⟩
  | false =>
      by_cases hlimit : 0 ≤ asI64 limit
      · obtain ⟨items, last, hnext, -, hafter⟩ := hreadable.next h hlimit
        rw [Subscriber.poll, if_neg Bool.false_ne_true, hnext]
        exact ⟨_, hafter⟩
      · have hrefused : EventSource.next subscriber.cursor limit db = .error (.err .failed) := by
          rw [EventSource.next, hreadable.selectEvents h.cursor, if_pos (not_le.1 hlimit)]
        rw [Subscriber.poll, if_neg Bool.false_ne_true, hrefused]
        exact ⟨count, h⟩

/-! ## Runs -/

theorem labelsOf_append (moments more : List Moment) :
    labelsOf (moments ++ more) = labelsOf moments ++ labelsOf more :=
  List.filterMap_append

/-- A subscriber stays abreast of the log, wherever its calls come. -/
theorem abreast_watch (S : Setting) (moments : List Moment)
    (hfollows : (prefetched S).follows system (labelsOf moments) initial) :
    ∃ count, Abreast S.given (watch moments initial .new).1.shared.db.event count
      (watch moments initial .new).2 := by
  induction moments using List.reverseRecOn with
  | nil => exact ⟨0, Nat.zero_le _, .nil, rfl⟩
  | append_singleton moments moment ih =>
      have hlabels := hfollows
      rw [labelsOf_append] at hlabels
      have hearlier := ((Discipline.follows_append system _ _ _ initial).1 hlabels).1
      obtain ⟨count, habreast⟩ := ih hearlier
      rw [config_watch] at habreast
      rw [watch_append]
      cases moment with
      | indexer label =>
          have hgrown := events_grow S (labelsOf moments) [label] hlabels
          rw [System.run_append] at hgrown
          refine ⟨count, ?_⟩
          simp only [watch, config_watch]
          exact habreast.grow hgrown
      | poll limit fails =>
          obtain ⟨t, hsettled⟩ := (kept_run S _ hearlier).settled
          simp only [watch, config_watch]
          exact habreast.poll (Settled.readable hsettled) limit fails

/-- In every run, with the calls of a subscriber at any moments: no two transactions that
write events are open together, so that the log only grows, at its end; and what the
subscriber has received are the first events of the log, until a call returns less than
its limit and there are no others. -/
theorem subscriber_reads_log (given : Set BlockData) (injective : Set.InjOn BlockData.hashId given)
    (network : Network) (moments : List Moment)
    (hfollows : (prefetched (unrestricted given injective network)).follows system
      (labelsOf moments) initial) :
    let c := (watch moments initial .new).1
    let subscriber := (watch moments initial .new).2
    let log := inIdOrder c.shared.db.event
    openTransactions c.shared ≤ 1 ∧
    (∀ mode network next, c.prog = .act (.spawn mode network) next → c.shared.workers = none) ∧
    log.Pairwise (fun before after => before.id < after.id) ∧
    (∀ earlier later, moments = earlier ++ later →
      inIdOrder (watch earlier initial .new).1.shared.db.event <+: log) ∧
    (∃ count ≤ log.length,
      List.Forall₂ (Announces given) (log.take count) subscriber.received) ∧
    ∀ limit : UInt64, 0 < limit.toNat → limit.toNat < 2 ^ 63 →
      ∃ items last, next subscriber.cursor limit c.shared.db = .ok (items, last) ∧
        (items.length < limit.toNat →
          List.Forall₂ (Announces given) log (subscriber.received ++ items)) := by
  intro c subscriber log
  have hrun : c = system.run (labelsOf moments) initial := config_watch moments initial .new
  obtain ⟨t, hsettled⟩ := (kept_run _ (labelsOf moments) hfollows).settled
  rw [← hrun] at hsettled
  have hlog : log = c.shared.db.event := inIdOrder_eq hsettled.committed.shows.logged
  obtain ⟨count, habreast⟩ := abreast_watch _ moments hfollows
  have hread : Abreast given log count subscriber := by
    rw [hlog]
    exact habreast
  refine ⟨?_, ?_, ?_, ?_, ⟨count, hread.bounded, hread.received⟩, ?_⟩
  · rw [hrun]
    exact (exclusive_run _ (labelsOf moments) hfollows).openTransactions_le
  · rw [hrun]
    exact fun mode network next hprog => workers_of_spawn _ (labelsOf moments) hfollows hprog
  · rw [hlog]
    exact hsettled.committed.shows.logged.ascending
  · rintro earlier later rfl
    rw [labelsOf_append] at hfollows
    have hbefore := ((Discipline.follows_append system _ _ _ initial).1 hfollows).1
    obtain ⟨u, hu⟩ := (kept_run _ (labelsOf earlier) hbefore).settled
    rw [hlog, hrun, config_watch, inIdOrder_eq hu.committed.shows.logged, labelsOf_append]
    exact events_grow _ (labelsOf earlier) (labelsOf later) hfollows
  · intro limit hpos hlt
    have hlimit : asI64 limit = limit.toNat := asI64_eq hlt
    obtain ⟨items, last, hnext, hlength, hafter⟩ :=
      (Settled.readable hsettled).next habreast (by rw [hlimit]; exact Int.natCast_nonneg _)
    refine ⟨items, last, hnext, fun hshort => ?_⟩
    rw [hlimit, Int.toNat_natCast] at hlength hafter
    have hall : min (count + limit.toNat) c.shared.db.event.length = c.shared.db.event.length := by
      change items.length = min limit.toNat (c.shared.db.event.length - count) at hlength
      omega
    have hreceived := hafter.received
    change List.Forall₂ _ (c.shared.db.event.take (min (count + limit.toNat)
      c.shared.db.event.length)) _ at hreceived
    rw [hall, List.take_length] at hreceived
    rw [hlog]
    exact hreceived

theorem labelsOf_map (labels : List StoreLabel) : labelsOf (labels.map .indexer) = labels := by
  rw [labelsOf, List.filterMap_map]
  exact List.filterMap_some

/-- Two polls in the middle of two reorgs, of which one fails. -/
@[irreducible]
def polled : List Moment :=
  (flipping.take 300).map .indexer ++ .poll 2 false :: .poll 5 true ::
    (flipping.drop 300).map .indexer

theorem labelsOf_polled : labelsOf polled = flipping := by
  have hpolls : ∀ labels : List StoreLabel, labelsOf (.poll 2 false :: .poll 5 true ::
      labels.map .indexer) = labels := labelsOf_map
  rw [polled, labelsOf_append, labelsOf_map, hpolls, List.take_append_drop]

/-- What the reorgs revert is among the events the last poll returns. -/
theorem flipping_polled :
    let c := (watch polled initial .new).1
    let subscriber := (watch polled initial .new).2
    subscriber.received.length = 2 ∧ ∃ items last,
      next subscriber.cursor 100 c.shared.db = .ok (items, last) ∧
        items.map (·.data) = [true, false, false, true, true, false, false, false] ∧
          List.Forall₂ (Announces {block | block ∈ flipped}) (inIdOrder c.shared.db.event)
            (subscriber.received ++ items) := by
  intro c subscriber
  have hfollows : (prefetched (unrestricted {block | block ∈ flipped} flipped_injective
      .bitcoin)).follows system (labelsOf polled) initial := by
    rw [labelsOf_polled]
    exact flipping_follows
  have hreceived : subscriber.received.length = 2 := by decide +kernel
  have hdata : (next subscriber.cursor 100 c.shared.db).toOption.map
      (fun result => result.1.map (·.data)) =
        some [true, false, false, true, true, false, false, false] := by decide +kernel
  obtain ⟨-, -, -, -, -, hnext⟩ := subscriber_reads_log {block | block ∈ flipped}
    flipped_injective .bitcoin polled hfollows
  obtain ⟨items, last, hok, hall⟩ := hnext 100 (by decide) (by decide)
  have hitems : items.map (·.data) = [true, false, false, true, true, false, false, false] := by
    rw [show next subscriber.cursor 100 c.shared.db = .ok (items, last) from hok] at hdata
    exact Option.some.inj hdata
  have hlength : items.length = 8 := by
    rw [← List.length_map (·.data), hitems]
    rfl
  have hshort : items.length < (100 : UInt64).toNat := by
    rw [hlength]
    decide
  exact ⟨hreceived, items, last, hok, hitems, hall hshort⟩

end BitcoinIndexer.EventSource
