import BitcoinIndexer.Fees.StoredOutputs
import BitcoinIndexer.Pipeline.Order

/-!
# Fees do not depend on batching

While a chain goes through the pipeline in batches of any size, with the workers stopped
and started again between them, the cache holds what this generation of workers has seen
created and not spent, and everything older is committed.  So each spent output is in
the cache or can be fetched, whatever the writer has committed meanwhile.
-/

namespace BitcoinIndexer.Fees

open BitcoinIndexer.Types
open BitcoinIndexer.Tables
open BitcoinIndexer.Formatter
open BitcoinIndexer.UtxoCache
open BitcoinIndexer.StoredRows
open BitcoinIndexer.Execution
open BitcoinIndexer.Worker
open BitcoinIndexer.Store
open BitcoinIndexer.Pipeline
open BitcoinIndexer.PipelineOrder
open BitcoinIndexer.Interleaving
open BitcoinIndexer.InsertedMap

def blocksOf (batches : List Batch) : List BlockData := batches.flatMap (·.blocks)

@[simp]
theorem blocksOf_append (left right : List Batch) :
    blocksOf (left ++ right) = blocksOf left ++ blocksOf right := by
  simp [blocksOf]

/-! ## One call of `process_blocks` -/

/-- The cache of workers that have processed `gen`. -/
def Cached (network : Network) (chain gen : List BlockData) (cache : UtxoSetCache) : Prop :=
  ∀ point, cache.entries.lookup point =
    if point ∈ createdPoints (txsOf network gen) ∧ point ∉ spent (txsOf network gen) then
      some ⟨valueOf (txsOf network chain) point⟩
    else none

/-- Between two queries: what a batch spends was found or is missing, and what is missing
is an output of the blocks `done`, part of which has been read. -/
structure Fetched (network : Network) (chain done : List BlockData) (batch : Batch)
    (fetch : Fetching) : Prop where
  split : ∀ point ∈ spent (txsOf network batch.blocks),
    fetch.found.lookup point = some ⟨valueOf (txsOf network chain) point⟩ ∨ point ∈ fetch.missing
  nodup : fetch.missing.Nodup
  stored : ∀ point ∈ fetch.missing, point ∈ createdPoints (txsOf network done)
  progress : ∃ read, fetch.missing = read ++ fetch.queries.flatten ∧
    ∀ point, fetch.out.lookup point =
      if point ∈ read then some ⟨valueOf (txsOf network chain) point⟩ else none

variable {network : Network} {chain done old gen rest : List BlockData}
variable {batch : Batch} {fetch : Fetching} {cache : UtxoSetCache}

theorem cached_default (network : Network) (chain : List BlockData) :
    Cached network chain [] .default := by
  intro point
  rw [if_neg (by simp [txsOf, createdPoints, created])]
  exact AList.lookup_empty point

theorem Valid.heights_of_sub (h : Valid network chain) {blocks : List BlockData}
    (hsub : blocks.Sublist chain) : (blocks.map (·.height)).Nodup :=
  h.heights_nodup.sublist (hsub.map _)

theorem createdPoints_of_append {blocks : List BlockData} {point : HashIdOutPoint}
    (hmem : point ∈ createdPoints (txsOf network blocks)) (hsub : blocks ⊆ chain) :
    point ∈ createdPoints (txsOf network chain) :=
  createdPoints_subset (txsOf_subset hsub) hmem

/-- The cache after the outputs of a batch have been added. -/
theorem Cached.inserted (h : Cached network chain gen cache) (hvalid : Valid network chain)
    (hchain : chain = old ++ gen ++ batch.blocks ++ rest) (point : HashIdOutPoint) :
    (insertCreated (created (txsOf network batch.blocks)) cache).entries.lookup point =
      if point ∈ createdPoints (txsOf network (gen ++ batch.blocks)) ∧
          point ∉ spent (txsOf network gen) then
        some ⟨valueOf (txsOf network chain) point⟩
      else none := by
  have hsub : batch.blocks ⊆ chain := by
    rw [hchain]
    intro block hmem
    simp [hmem]
  have hvalue : ∀ output ∈ created (txsOf network batch.blocks),
      output.2 = valueOf (txsOf network chain) output.1 := by
    intro output hmem
    obtain ⟨tx, htx, hin⟩ := List.mem_flatMap.1 hmem
    exact hvalid.value_eq (List.mem_flatMap.2 ⟨tx, txsOf_subset hsub htx, hin⟩)
  rw [lookup_insertCreated hvalue, h point]
  change (if point ∈ createdPoints (txsOf network batch.blocks) then _ else _) = _
  simp only [txsOf_append, createdPoints_append, List.mem_append]
  by_cases hnew : point ∈ createdPoints (txsOf network batch.blocks)
  · -- nothing spends an output before it is created
    have hunspent : point ∉ spent (txsOf network gen) := by
      intro hspent
      have hsplit : Valid network (old ++ gen ++ (batch.blocks ++ rest)) := by
        rw [← List.append_assoc, ← hchain]
        exact hvalid
      have hearlier := hsplit.spent_created hspent
      have hnodup := hvalid.createdPoints_nodup
      rw [hchain] at hnodup
      simp only [txsOf_append, createdPoints_append] at hnodup hearlier
      have hdisjoint := (List.nodup_append.1 (List.nodup_append.1 hnodup).1).2.2
      exact hdisjoint point hearlier point hnew rfl
    rw [if_pos hnew, if_pos ⟨.inr hnew, hunspent⟩]
  · simp [hnew]

/-- The part of `process_blocks` before the first query. -/
theorem Cached.processLocal (h : Cached network chain gen cache) (hvalid : Valid network chain)
    (hchain : chain = old ++ gen ++ batch.blocks ++ rest) (hold : old ⊆ done) :
    ∃ consumed, cache.processLocal batch.blocks (txIdMapFromBlocks batch.blocks network) =
        .ok consumed ∧
      Cached network chain (gen ++ batch.blocks) consumed.cache ∧
      Fetched network chain done batch ⟨txIdMapFromBlocks batch.blocks network, consumed.found,
        consumed.missing, fmtFetchOutputsSql consumed.missing, ∅⟩ := by
  have hsublist : batch.blocks.Sublist chain := by
    rw [hchain]
    exact (List.sublist_append_right _ _).trans (List.sublist_append_left _ _)
  have hvalid' : Valid network (old ++ gen ++ batch.blocks ++ rest) := hchain ▸ hvalid
  have hinsert := insertBlocks_eq (fun block hblock tx htx =>
    lookup_txIdMapFromBlocks (hvalid.heights_of_sub hsublist) network hblock htx) cache
  have htaken := consumeSpentUtxos_taken (hvalid'.spent_nodup)
    ⟨insertCreated (created (txsOf network batch.blocks)) cache, ∅, []⟩
  refine ⟨_, by rw [UtxoSetCache.processLocal, hinsert]; rfl, ?_, ?_⟩
  · intro point
    rw [UtxoSetCache.consumeSpentUtxosFromBlocks, spentOutputs_eq network, htaken.cache,
      h.inserted hvalid hchain]
    simp only [txsOf_append, spent_append, List.mem_append]
    by_cases hspent : point ∈ spent (txsOf network batch.blocks) <;> simp [hspent]
  · have hmissing : ∀ point, point ∈ (UtxoSetCache.consumeSpentUtxosFromBlocks batch.blocks
        (insertCreated (created (txsOf network batch.blocks)) cache)).missing ↔
          point ∈ spent (txsOf network batch.blocks) ∧
            ((insertCreated (created (txsOf network batch.blocks)) cache).entries.lookup
              point).isNone := by
      intro point
      rw [UtxoSetCache.consumeSpentUtxosFromBlocks, spentOutputs_eq network, htaken.missing]
      simp
    constructor
    case split =>
      intro point hspent
      have hlookup := h.inserted hvalid hchain point
      cases hfound : (insertCreated (created (txsOf network batch.blocks)) cache).entries.lookup
          point with
      | none => exact .inr ((hmissing point).2 ⟨hspent, by simp [hfound]⟩)
      | some entry =>
          apply Or.inl
          simp only
          rw [UtxoSetCache.consumeSpentUtxosFromBlocks, spentOutputs_eq network, htaken.found,
            if_pos ⟨hspent, by simp [hfound]⟩, hlookup]
          rw [hlookup] at hfound
          split at hfound
          · rw [if_pos ‹_›]
          · cases hfound
    case nodup =>
      simp only
      rw [UtxoSetCache.consumeSpentUtxosFromBlocks, spentOutputs_eq network, htaken.missing]
      exact hvalid'.spent_nodup.filter _
    case stored =>
      intro point hmem
      obtain ⟨hspent, hnone⟩ := (hmissing point).1 hmem
      have hcreated := hvalid'.spent_created hspent
      have hfresh := hvalid'.spent_fresh hspent
      rw [h.inserted hvalid hchain] at hnone
      rw [txsOf_append, spent_append, List.mem_append, not_or] at hfresh
      have hnotGen : point ∉ createdPoints (txsOf network (gen ++ batch.blocks)) := by
        intro hin
        rw [if_pos ⟨hin, hfresh.2⟩] at hnone
        cases hnone
      rw [List.append_assoc, txsOf_append, createdPoints_append, List.mem_append] at hcreated
      exact createdPoints_of_append (hcreated.resolve_right hnotGen) hold
    case progress =>
      refine ⟨[], by simp, fun point => ?_⟩
      rw [if_neg (by simp)]
      exact AList.lookup_empty point

namespace Fetched

theorem mono (h : Fetched network chain done batch fetch) {more : List BlockData}
    (hsub : done ⊆ more) : Fetched network chain more batch fetch :=
  ⟨h.split, h.nodup, fun point hmem => createdPoints_of_append (h.stored point hmem) hsub,
    h.progress⟩

/-- One query reads what it asks for: all of it is committed. -/
theorem chunk (h : Fetched network chain done batch fetch) {db : Db} (hdone : done ⊆ chain)
    (hstored : Stored network chain done db) {chunk : List HashIdOutPoint}
    {queries : List (List HashIdOutPoint)} (hqueries : fetch.queries = chunk :: queries) :
    Fetched network chain done batch
      { fetch with queries := queries, out := fetchChunk chunk db fetch.out } := by
  obtain ⟨read, hmissing, hout⟩ := h.progress
  rw [hqueries, List.flatten_cons] at hmissing
  have hchunk : ∀ point ∈ chunk, point ∈ createdPoints (txsOf network done) := by
    intro point hmem
    apply h.stored
    rw [hmissing]
    simp [hmem]
  refine ⟨h.split, h.nodup, h.stored, read ++ chunk, by simp [hmissing], fun point => ?_⟩
  simp only
  rw [lookup_fetchChunk (txsOf network chain)
    (fun point hmem => hstored.outputs point (hchunk point hmem))
    (fun row hrow hpoint => hstored.values row hrow
      (createdPoints_of_append (hchunk _ hpoint) hdone)), hout]
  by_cases hread : point ∈ read <;> by_cases hin : point ∈ chunk <;> simp [hread, hin]

/-- After the last query nothing is missing, and the map is right. -/
theorem complete (h : Fetched network chain done batch fetch) (hqueries : fetch.queries = []) :
    fetchedAll fetch.missing fetch.out = true ∧
      RightFor (txsOf network chain) (spent (txsOf network batch.blocks))
        (insertFetched fetch.found fetch.out) := by
  obtain ⟨read, hmissing, hout⟩ := h.progress
  rw [hqueries, List.flatten_nil, List.append_nil] at hmissing
  subst hmissing
  constructor
  · have hkeys : fetch.out.keys.length = fetch.missing.length := by
      apply length_keys_eq h.nodup
      intro point
      rw [hout]
      by_cases hmem : point ∈ fetch.missing <;> simp [hmem]
    simp [fetchedAll, hkeys]
  · intro point hspent
    rw [lookup_insertFetched, hout]
    by_cases hmem : point ∈ fetch.missing
    · simp [hmem]
    · simpa [hmem] using (h.split point hspent).resolve_right hmem

end Fetched

end BitcoinIndexer.Fees
