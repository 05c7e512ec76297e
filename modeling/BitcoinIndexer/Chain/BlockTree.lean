import Mathlib.Data.Set.Function
import BitcoinIndexer.Chain.Representation

/-!
# Block trees and the states that are committed

A block tree is what the tables are for: the blocks ever indexed, closed under
predecessors, and the chain among them that is not extinct.  `Committed` generates
the database states other connections can see: a batch extends the chain, a reorg
transaction replaces its upper part, and nothing else changes it.
-/

namespace BitcoinIndexer.ChainState

open BitcoinIndexer.Types
open BitcoinIndexer.Tables
open BitcoinIndexer.Formatter
open BitcoinIndexer.ReferenceChain
open BitcoinIndexer.Representation
open BitcoinIndexer.Execution
open BitcoinIndexer.StoredRows

structure BlockTree where
  known : List BlockData
  chain : List BlockData
  linked : Extends [] chain
  stored : ∀ block ∈ chain, block ∈ known
  distinct : (known.map BlockData.hashId).Nodup
  bounded : ∀ block ∈ known, block.height < chain.length
  rooted : ∀ block ∈ known, 0 < block.height →
    ∃ parent ∈ known, parent.id = block.data.header.prevBlockhash

namespace BlockTree

def empty : BlockTree :=
  ⟨[], [], extends_nil _, by simp, List.nodup_nil, by simp, by simp⟩

theorem nodup_known (t : BlockTree) : t.known.Nodup := t.distinct.of_map

/-- The predecessor of a block that extends a chain is on it. -/
theorem exists_parent {chain blocks : List BlockData} (hextends : Extends (idents chain) blocks)
    {block : BlockData} (hmem : block ∈ blocks) (hpos : 0 < block.height) :
    ∃ parent ∈ chain ++ blocks, parent.id = block.data.header.prevBlockhash := by
  obtain ⟨left, right, rfl⟩ := List.append_of_mem hmem
  have hprev := (extends_append.1 hextends).2.1.2 hpos
  have hin := List.mem_of_getElem? hprev
  rw [← idents_append] at hin
  obtain ⟨parent, hparent, hid⟩ := List.mem_map.1 hin
  refine ⟨parent, ?_, hid⟩
  rw [← List.append_assoc]
  exact List.mem_append_left _ hparent

/-- The chain from `height` on is replaced by revived and new blocks; it does not get
shorter. -/
def replace (t : BlockTree) (height : ℕ) (revived new : List BlockData)
    (hextends : Extends (idents (t.chain.take height)) (revived ++ new))
    (hrevived : ∀ block ∈ revived, block ∈ t.known)
    (hdistinct : ((t.known ++ new).map BlockData.hashId).Nodup)
    (hlonger : t.chain.length ≤ (t.chain.take height ++ (revived ++ new)).length) : BlockTree where
  known := t.known ++ new
  chain := t.chain.take height ++ (revived ++ new)
  linked := extends_append.2 ⟨t.linked.take height, hextends⟩
  stored := by
    intro block hmem
    obtain hkept | hmem := List.mem_append.1 hmem
    · exact List.mem_append_left _ (t.stored block (List.mem_of_mem_take hkept))
    · obtain hold | hnew := List.mem_append.1 hmem
      · exact List.mem_append_left _ (hrevived block hold)
      · exact List.mem_append_right _ hnew
  distinct := hdistinct
  bounded := by
    intro block hmem
    obtain hold | hnew := List.mem_append.1 hmem
    · exact lt_of_lt_of_le (t.bounded block hold) hlonger
    · have hbounds := (hextends.height_bounds (List.mem_append_right revived hnew)).2
      rw [length_idents] at hbounds
      simpa using hbounds
  rooted := by
    intro block hmem hpos
    obtain hold | hnew := List.mem_append.1 hmem
    · obtain ⟨parent, hparent, hid⟩ := t.rooted block hold hpos
      exact ⟨parent, List.mem_append_left _ hparent, hid⟩
    · obtain ⟨parent, hparent, hid⟩ :=
        exists_parent hextends (List.mem_append_right revived hnew) hpos
      refine ⟨parent, ?_, hid⟩
      obtain hkept | hparent := List.mem_append.1 hparent
      · exact List.mem_append_left _ (t.stored parent (List.mem_of_mem_take hkept))
      · obtain hold | hnew := List.mem_append.1 hparent
        · exact List.mem_append_left _ (hrevived parent hold)
        · exact List.mem_append_right _ hnew

section

variable {U : Set BlockData} {t : BlockTree} {new : List BlockData}

/-- Ids stay distinct when unknown blocks are added, ids determining blocks. -/
theorem distinct_append (hinjective : Set.InjOn BlockData.hashId U)
    (hknown : ∀ block ∈ t.known, block ∈ U) (hnew : ∀ block ∈ new, block ∈ U)
    (hnodup : new.Nodup) (hfresh : ∀ block ∈ new, block ∉ t.known) :
    ((t.known ++ new).map BlockData.hashId).Nodup := by
  rw [List.map_append, List.nodup_append]
  refine ⟨t.distinct, hnodup.map_on fun left hleft right hright heq =>
    hinjective (hnew left hleft) (hnew right hright) heq, ?_⟩
  intro _ hleft _ hright heq
  obtain ⟨old, hold, rfl⟩ := List.mem_map.1 hleft
  obtain ⟨block, hblock, rfl⟩ := List.mem_map.1 hright
  obtain rfl := hinjective (hknown old hold) (hnew block hblock) heq
  exact hfresh old hblock hold

theorem exists_replaced {height : BlockHeight} {revived : List BlockData}
    (hinjective : Set.InjOn BlockData.hashId U) (hknown : ∀ block ∈ t.known, block ∈ U)
    (hnew : ∀ block ∈ new, block ∈ U) (hfresh : ∀ block ∈ new, block ∉ t.known)
    (hrevived : ∀ block ∈ revived, block ∈ t.known)
    (hextends : Extends (idents (t.chain.take height)) (revived ++ new))
    (hlonger : t.chain.length ≤ (t.chain.take height ++ (revived ++ new)).length) :
    ∃ t' : BlockTree, t'.known = t.known ++ new ∧
      t'.chain = t.chain.take height ++ (revived ++ new) :=
  have hnodup : new.Nodup := (List.nodup_append.1 hextends.nodup).2.1
  ⟨t.replace height revived new hextends hrevived
    (distinct_append hinjective hknown hnew hnodup hfresh) hlonger, rfl, rfl⟩

/-- Blocks at the tip lie above every known one. -/
theorem fresh_of_extends (hextends : Extends (idents t.chain) new) :
    ∀ block ∈ new, block ∉ t.known := by
  intro block hmem hknown
  have hbelow := t.bounded block hknown
  have habove := (hextends.height_bounds hmem).1
  rw [length_idents] at habove
  exact absurd hbelow (not_lt.2 habove)

theorem exists_extended (hinjective : Set.InjOn BlockData.hashId U)
    (hknown : ∀ block ∈ t.known, block ∈ U) (hnew : ∀ block ∈ new, block ∈ U)
    (hextends : Extends (idents t.chain) new) :
    ∃ t' : BlockTree, t'.known = t.known ++ new ∧ t'.chain = t.chain ++ new := by
  have htake : t.chain.take t.chain.length = t.chain := List.take_length
  have hreplaced := @exists_replaced U t new t.chain.length [] hinjective hknown hnew
    (fresh_of_extends hextends) (by simp) (by simpa using hextends) (by simp)
  simpa using hreplaced

end

end BlockTree

/-! ## Committed states -/

/-- The transactions that change the chain. -/
inductive Commit where
  /-- A batch of the pipeline, with the mode of its formatter. -/
  | batch (mode : Mode) (blocks : List BlockData)
  /-- A reorg from `height` on, with the blocks it revives and those it inserts. -/
  | reorg (mode : Mode) (height : BlockHeight) (revived new : List BlockData)

def reviveAll (blocks : List BlockData) (db : Db) : Db :=
  blocks.foldl (fun db block =>
    ((db.unmarkExtinct block.hashId).clearCurrentHeight block.height).insertEvents false
      [block.hashId]) db

/-- The state of a reorg transaction before it inserts the new blocks. -/
def reorganized (height : BlockHeight) (revived : List BlockData) (db : Db) : Db :=
  reviveAll revived ((db.insertRevertEvents height).markExtinct height)

/-- The states made visible when all blocks are among `U`, of one network, and every
commit meets `P` in the state it starts from. -/
inductive Committed (U : Set BlockData) (network : Network) (P : Db → Commit → Prop) :
    BlockTree → Db → Prop where
  | fresh (bulkMode : Option Bool) :
      Committed U network P .empty { Db.empty with bulkMode := bulkMode }
  | batch {t t' : BlockTree} {db after : Db} (mode : Mode) (inputsUtxoMap : UtxoDetailsMap)
      (queries : Queries) (blocks : List BlockData) (h : Committed U network P t db)
      (hready : db.bulkMode ≠ none) (hgiven : ∀ block ∈ blocks, block ∈ U)
      (hextends : Extends (idents t.chain) blocks) (hP : P db (.batch mode blocks))
      (hqueries : fmtInsertBlockdataSql blocks inputsUtxoMap (txIdMapFromBlocks blocks network)
        mode network = .ok queries)
      (hexecute : executeAll queries.toList db = (after, none))
      (hknown : t'.known = t.known ++ blocks) (hchain : t'.chain = t.chain ++ blocks) :
      Committed U network P t' after
  | reorg {t t' : BlockTree} {db after : Db} (mode : Mode) (inputsUtxoMap : UtxoDetailsMap)
      (queries : Queries) (height : BlockHeight) (revived new : List BlockData)
      (h : Committed U network P t db) (hready : db.bulkMode ≠ none)
      (hgiven : ∀ block ∈ new, block ∈ U) (hrevived : ∀ block ∈ revived, block ∈ t.known)
      (hextends : Extends (idents (t.chain.take height)) (revived ++ new))
      (hP : P db (.reorg mode height revived new))
      (hqueries : fmtInsertBlockdataSql new inputsUtxoMap (txIdMapFromBlocks new network) mode
        network = .ok queries)
      (hexecute : executeAll queries.toList (reorganized height revived db) = (after, none))
      (hknown : t'.known = t.known ++ new)
      (hchain : t'.chain = t.chain.take height ++ (revived ++ new)) :
      Committed U network P t' after
  | schema {t : BlockTree} {db : Db} (mode : Mode) (h : Committed U network P t db)
      (hunique : keysUnique mode db) : Committed U network P t { db with schema := mode }
  | bulkMode {t : BlockTree} {db : Db} (bulk : Bool) (h : Committed U network P t db) :
      Committed U network P t { db with bulkMode := some bulk }
  | burn {t : BlockTree} {db : Db} (transaction : Db) (h : Committed U network P t db) :
      Committed U network P t (db.rollback transaction)

section

variable {U : Set BlockData} {network : Network} {P : Db → Commit → Prop}
variable {t : BlockTree} {db : Db}

/-- Heights along an extension are distinct, so every transaction id is found. -/
theorem heights_nodup {chain : List BlockHash} {blocks : List BlockData}
    (hextends : Extends chain blocks) : (blocks.map (·.height)).Nodup := by
  have hmap : blocks.map (·.height) = List.range' chain.length blocks.length :=
    hextends.map_height
  rw [hmap]
  exact List.nodup_range'

theorem shows_reviveAll {known : List BlockData} (hdistinct : (known.map BlockData.hashId).Nodup)
    (blocks : List BlockData) :
    ∀ {chain db}, Shows known chain db → (∀ block ∈ blocks, block ∈ known) →
      Extends (idents chain) blocks → Shows known (chain ++ blocks) (reviveAll blocks db) := by
  induction blocks with
  | nil =>
      intro chain db h _ _
      simpa [reviveAll] using h
  | cons block blocks ih =>
      intro chain db h hmem hextends
      have hone : Extends (idents chain) [block] := ⟨hextends.1, trivial⟩
      have hrest : Extends (idents (chain ++ [block])) blocks := by
        simpa using hextends.2
      have hshows := ih (h.revive hdistinct (hmem block (by simp)) hone)
        (fun block hin => hmem block (by simp [hin])) hrest
      simpa [reviveAll] using hshows

theorem shows_reorganized (h : Shows t.known t.chain db) {height : BlockHeight}
    {revived : List BlockData} (hrevived : ∀ block ∈ revived, block ∈ t.known)
    (hextends : Extends (idents (t.chain.take height)) revived) :
    Shows t.known (t.chain.take height ++ revived) (reorganized height revived db) :=
  shows_reviveAll t.distinct revived
    (h.revert t.nodup_known t.linked t.stored height) hrevived hextends

/-- Reviving blocks changes the blocks, their events and the heights of transactions. -/
theorem reviveAll_frame (blocks : List BlockData) :
    ∀ db : Db, ∃ eventIdSeq event block tx, reviveAll blocks db =
      { db with eventIdSeq := eventIdSeq, event := event, block := block, tx := tx } := by
  induction blocks with
  | nil => exact fun db => ⟨db.eventIdSeq, db.event, db.block, db.tx, rfl⟩
  | cons block blocks ih =>
      intro db
      obtain ⟨eventIdSeq, event, rows, tx, hafter⟩ :=
        ih (((db.unmarkExtinct block.hashId).clearCurrentHeight block.height).insertEvents false
          [block.hashId])
      exact ⟨eventIdSeq, event, rows, tx, hafter⟩

theorem reorganized_frame (height : BlockHeight) (revived : List BlockData) (db : Db) :
    ∃ eventIdSeq event block tx, reorganized height revived db =
      { db with eventIdSeq := eventIdSeq, event := event, block := block, tx := tx } :=
  reviveAll_frame revived _

@[simp]
theorem reorganized_bulkMode (height : BlockHeight) (revived : List BlockData) (db : Db) :
    (reorganized height revived db).bulkMode = db.bulkMode := by
  obtain ⟨eventIdSeq, event, block, tx, hafter⟩ := reorganized_frame height revived db
  rw [hafter]

/-- Every committed state shows its tree. -/
theorem Committed.shows (h : Committed U network P t db) : Shows t.known t.chain db := by
  induction h with
  | fresh bulkMode => exact ⟨rfl, rfl, List.Pairwise.nil, by simp [Db.empty]⟩
  | @batch t t' db after mode inputsUtxoMap queries blocks h hready hgiven hextends hP hqueries
      hexecute hknown hchain ih =>
      rw [hknown, hchain]
      have hdistinct := t'.distinct
      rw [hknown] at hdistinct
      exact ih.append hdistinct t.linked hextends
        (executed (saying_of_fmt (heights_nodup hextends) hqueries) hexecute)
  | @reorg t t' db after mode inputsUtxoMap queries height revived new h hready hgiven hrevived
      hextends hP hqueries hexecute hknown hchain ih =>
      rw [hknown, hchain, ← List.append_assoc]
      have hdistinct := t'.distinct
      have hlinked := t'.linked
      rw [hknown] at hdistinct
      rw [hchain, ← List.append_assoc] at hlinked
      have hparts := extends_append.1 hextends
      rw [← idents_append] at hparts
      have hshows := shows_reorganized ih hrevived hparts.1
      exact hshows.append hdistinct (extends_append.1 hlinked).1 hparts.2
        (executed (saying_of_fmt (heights_nodup hparts.2) hqueries) hexecute)
  | schema mode h hunique ih => exact ⟨ih.rows, ih.logged.congr rfl le_rfl⟩
  | bulkMode bulk h ih => exact ⟨ih.rows, ih.logged.congr rfl le_rfl⟩
  | @burn t db transaction h ih =>
      have hseq : db.eventIdSeq ≤ (db.rollback transaction).eventIdSeq := le_max_left _ _
      have hrows : (db.rollback transaction).block = t.known.map (rowIn t.chain) := ih.rows
      exact ⟨hrows, ih.logged.congr rfl hseq⟩

theorem Committed.given (h : Committed U network P t db) : ∀ block ∈ t.known, block ∈ U := by
  induction h with
  | fresh bulkMode => simp [BlockTree.empty]
  | batch mode inputsUtxoMap queries blocks h hready hgiven hextends hP hqueries hexecute hknown
      hchain ih =>
      rw [hknown]
      intro block hmem
      obtain hold | hnew := List.mem_append.1 hmem
      · exact ih block hold
      · exact hgiven block hnew
  | reorg mode inputsUtxoMap queries height revived new h hready hgiven hrevived hextends hP
      hqueries hexecute hknown hchain ih =>
      rw [hknown]
      intro block hmem
      obtain hold | hnew := List.mem_append.1 hmem
      · exact ih block hold
      · exact hgiven block hnew
  | schema mode h hunique ih => exact ih
  | bulkMode bulk h ih => exact ih
  | burn transaction h ih => exact ih

/-- Where the state row has never been written, nothing has been stored. -/
theorem Committed.unready (h : Committed U network P t db) :
    db.bulkMode = none → t.known = [] := by
  induction h with
  | fresh bulkMode => exact fun _ => rfl
  | @batch t t' db after mode inputsUtxoMap queries blocks h hready hgiven hextends hP hqueries
      hexecute hknown hchain ih =>
      have hsame := (executed (saying_of_fmt (heights_nodup hextends) hqueries) hexecute).bulkMode
      rw [hsame]
      exact fun hnone => absurd hnone hready
  | @reorg t t' db after mode inputsUtxoMap queries height revived new h hready hgiven hrevived
      hextends hP hqueries hexecute hknown hchain ih =>
      have hsame := (executed (saying_of_fmt (heights_nodup (extends_append.1 hextends).2)
        hqueries) hexecute).bulkMode
      rw [reorganized_bulkMode] at hsame
      rw [hsame]
      exact fun hnone => absurd hnone hready
  | schema mode h hunique ih => exact ih
  | bulkMode bulk h ih => simp
  | burn transaction h ih => exact fun hnone => ih hnone

theorem Committed.chain_eq (h : Committed U network P t db) : db.chain = idents t.chain :=
  h.shows.chain_eq t.nodup_known t.linked t.stored

theorem Committed.readDbChainBlockCount (h : Committed U network P t db) :
    db.readDbChainBlockCount = t.chain.length :=
  h.shows.readDbChainBlockCount t.linked t.stored t.bounded

theorem Committed.readDbChainCurrentBlockCount (h : Committed U network P t db) :
    db.readDbChainCurrentBlockCount = t.chain.length :=
  h.shows.readDbChainCurrentBlockCount t.linked t.stored

end

end BitcoinIndexer.ChainState
