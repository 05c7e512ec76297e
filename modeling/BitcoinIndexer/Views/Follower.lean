import BitcoinIndexer.Views.EventSource

/-!
# A follower of the event log

The log tells of whole blocks, each put on the block it is built on.  A follower that keeps
the ids of a chain can therefore apply every item it is given, and when it has read the whole
log it has the chain of the tables.
-/

namespace BitcoinIndexer.Follower

open BitcoinIndexer.Types
open BitcoinIndexer.Tables
open BitcoinIndexer.CancelingLog
open BitcoinIndexer.ReferenceChain
open BitcoinIndexer.Representation
open BitcoinIndexer.Execution
open BitcoinIndexer.StoredRows
open BitcoinIndexer.Worker
open BitcoinIndexer.ChainState
open BitcoinIndexer.Grounding
open BitcoinIndexer.EventSource
open BitcoinIndexer.Node (WithHeightAndId)

/-! ## The blocks of the log -/

/-- A block of `given` that extends the chain. -/
def OnTop (given : Set BlockData) (chain : List BlockData) (block : BlockData) : Prop :=
  block ∈ given ∧ Extends (idents chain) [block]

/-- The rows of `event` are `script`, with the blocks told by their hash ids. -/
def Tells (script : List (Entry BlockData)) (db : Db) : Prop :=
  db.event.map entryOf = script.map (Entry.map BlockData.hashId)

variable {given : Set BlockData} {network : Network} {P : Db → Commit → Prop}
variable {t : BlockTree} {db after : Db} {script : List (Entry BlockData)}
variable {chain blocks : List BlockData}

theorem replays_extension (hgiven : ∀ block ∈ blocks, block ∈ given)
    (hextends : Extends (idents chain) blocks) :
    Replays (OnTop given) (pushes blocks) chain (chain ++ blocks) := by
  apply replays_pushes
  rintro before block rest rfl
  refine ⟨hgiven block (by simp), ?_⟩
  rw [idents_append]
  exact ⟨(extends_append.1 hextends).2.1, trivial⟩

theorem Tells.insertEvents (h : Tells script db) (revert : Bool) (blocks : List BlockData) :
    Tells (script ++ blocks.map fun block => ⟨revert, block⟩)
      (db.insertEvents revert (hashIds blocks)) := by
  have hrows : ((hashIds blocks).map fun name => (⟨revert, name⟩ : Entry HashId)) =
      (blocks.map fun block => (⟨revert, block⟩ : Entry BlockData)).map
        (Entry.map BlockData.hashId) := by
    rw [hashIds, List.map_map, List.map_map]
    rfl
  rw [Tells, Db.insertEvents, List.map_append, entryOf_eventRows, h, hrows, List.map_append]

theorem Tells.reviveAll (blocks : List BlockData) :
    ∀ {script db}, Tells script db → Tells (script ++ pushes blocks) (reviveAll blocks db) := by
  induction blocks with
  | nil =>
      intro script db h
      simpa [pushes, ChainState.reviveAll] using h
  | cons block blocks ih =>
      intro script db h
      have hone : Tells script ((db.unmarkExtinct block.hashId).clearCurrentHeight block.height) := h
      have hrest := ih (hone.insertEvents false [block])
      rw [List.append_assoc] at hrest
      exact hrest

theorem Tells.reorganized (h : Tells script db) (hshows : Shows t.known t.chain db)
    (height : BlockHeight) (revived : List BlockData) :
    Tells (script ++ (reverts (t.chain.drop height) ++ pushes revived))
      (reorganized height revived db) := by
  have hreverted : Tells (script ++ reverts (t.chain.drop height))
      ((db.insertRevertEvents height).markExtinct height) := by
    have hinserted := h.insertEvents true (t.chain.drop height).reverse
    have hnames := hshows.revert_names t.nodup_known t.linked t.stored height
    have hreverse : hashIds (t.chain.drop height).reverse = (hashIds (t.chain.drop height)).reverse :=
      List.map_reverse
    rw [hreverse, ← hnames] at hinserted
    exact hinserted
  rw [← List.append_assoc]
  exact hreverted.reviveAll revived

theorem names_pushes {block : BlockData} (hmem : block ∈ blocks) :
    block ∈ (pushes blocks).map Entry.name :=
  List.mem_map.2 ⟨⟨false, block⟩, List.mem_map_of_mem hmem, rfl⟩

/-- Replayed with whole blocks the log gives the chain itself, and it tells of every block that
was ever stored. -/
theorem exists_script (h : Committed given network P t db) :
    ∃ script, Tells script db ∧ Replays (OnTop given) script [] t.chain ∧
      t.known ⊆ script.map Entry.name := by
  induction h with
  | fresh bulkMode => exact ⟨[], rfl, rfl, by simp [BlockTree.empty]⟩
  | @batch t t' db after mode inputsUtxoMap queries blocks h hready hgiven hextends hP hqueries
      hexecute hknown hchain ih =>
      obtain ⟨script, htells, hreplays, hnamed⟩ := ih
      have hexecuted := executed (saying_of_fmt (heights_nodup hextends) hqueries) hexecute
      refine ⟨script ++ pushes blocks, ?_, ?_, ?_⟩
      · rw [Tells, hexecuted.event]
        exact htells.insertEvents false blocks
      · rw [hchain]
        exact hreplays.append (replays_extension hgiven hextends)
      · rw [hknown, List.map_append, List.append_subset]
        exact ⟨List.subset_append_of_subset_left _ hnamed, fun block hmem =>
          List.mem_append_right _ (names_pushes hmem)⟩
  | @reorg t t' db after mode inputsUtxoMap queries height revived new h hready hgiven hrevived
      hextends hP hqueries hexecute hknown hchain ih =>
      obtain ⟨script, htells, hreplays, hnamed⟩ := ih
      have hparts := extends_append.1 hextends
      have hexecuted := executed (saying_of_fmt (heights_nodup hparts.2) hqueries) hexecute
      refine ⟨script ++ (reverts (t.chain.drop height) ++ pushes revived) ++ pushes new,
        ?_, ?_, ?_⟩
      · rw [Tells, hexecuted.event]
        exact (htells.reorganized h.shows height revived).insertEvents false new
      · rw [hchain, ← List.append_assoc (t.chain.take height)]
        rw [← idents_append] at hparts
        have hback : Replays (OnTop given) (reverts (t.chain.drop height)) t.chain
            (t.chain.take height) := by
          conv => arg 3; rw [← List.take_append_drop height t.chain]
          exact replays_reverts _ _
        have hrevive := replays_extension (fun block hmem => h.given block (hrevived block hmem))
          hparts.1
        exact (hreplays.append (hback.append hrevive)).append (replays_extension hgiven hparts.2)
      · rw [hknown, List.append_assoc, List.map_append, List.append_subset]
        refine ⟨List.subset_append_of_subset_left _ hnamed, fun block hmem => ?_⟩
        rw [List.map_append]
        exact List.mem_append_right _ (List.mem_append_right _ (names_pushes hmem))
  | schema mode h hunique ih => exact ih
  | bulkMode bulk h ih => exact ih
  | burn transaction h ih => exact ih

/-- The log has an event for every block that was ever stored, and for no other. -/
theorem mem_names_iff (h : Committed given network P t db) {name : HashId} :
    name ∈ db.event.map (·.blockHashId) ↔ name ∈ hashIds t.known := by
  constructor
  · intro hmem
    obtain ⟨event, hevent, rfl⟩ := List.mem_map.1 hmem
    exact name_known h.shows.logged event hevent
  · intro hmem
    obtain ⟨script, htells, -, hnamed⟩ := exists_script h
    obtain ⟨block, hblock, rfl⟩ := List.mem_map.1 hmem
    obtain ⟨entry, hentry, rfl⟩ := List.mem_map.1 (hnamed hblock)
    have htold : entry.map BlockData.hashId ∈ db.event.map entryOf := by
      rw [htells]
      exact List.mem_map_of_mem hentry
    obtain ⟨event, hevent, hsame⟩ := List.mem_map.1 htold
    exact List.mem_map.2 ⟨event, hevent, congrArg Entry.name hsame⟩

/-- A state whose log goes on from that of another one has all the blocks of that one. -/
theorem known_subset (injective : Set.InjOn BlockData.hashId given) {P' : Db → Commit → Prop}
    {t' : BlockTree} (h : Committed given network P t db)
    (hafter : Committed given network P' t' after) (hlog : db.event <+: after.event) : t.known ⊆ t'.known := by
  intro block hmem
  have hlogged : block.hashId ∈ db.event.map (·.blockHashId) :=
    (mem_names_iff h).2 (List.mem_map_of_mem hmem)
  have hstored := (mem_names_iff hafter).1 ((hlog.map _).subset hlogged)
  obtain ⟨other, hother, hhashId⟩ := List.mem_map.1 hstored
  obtain rfl := injective (hafter.given other hother) (h.given block hmem) hhashId
  exact hother

/-! ## A follower -/

/-- The chain after an item, `none` where the item does not fit. -/
def apply (chain : List BlockHash) (item : WithHeightAndId BlockHash Bool) :
    Option (List BlockHash) :=
  if item.data then
    if item.height + 1 = chain.length ∧ chain.getLast? = some item.id then some chain.dropLast
    else none
  else if item.height = chain.length then some (chain ++ [item.id])
  else none

/-- The chain that a follower has after these items. -/
def follow (items : List (WithHeightAndId BlockHash Bool)) : Option (List BlockHash) :=
  items.foldlM apply []

def itemOf (entry : Entry BlockData) : WithHeightAndId BlockHash Bool :=
  ⟨entry.name.height, entry.name.id, entry.revert⟩

/-- Blocks of the node from the genesis block on. -/
def Rooted (given : Set BlockData) (chain : List BlockData) : Prop :=
  Extends [] chain ∧ ∀ block ∈ chain, block ∈ given

theorem Rooted.push (h : Rooted given chain) {block : BlockData} (hon : OnTop given chain block) :
    Rooted given (chain ++ [block]) ∧
      apply (idents chain) (itemOf ⟨false, block⟩) = some (idents (chain ++ [block])) := by
  refine ⟨⟨extends_append.2 ⟨h.1, hon.2⟩, ?_⟩, ?_⟩
  · intro other hmem
    obtain hold | hnew := List.mem_append.1 hmem
    · exact h.2 other hold
    · exact List.mem_singleton.1 hnew ▸ hon.1
  · have hheight : block.height = (idents chain : List BlockHash).length := hon.2.1.1
    rw [apply, itemOf, if_neg Bool.false_ne_true, if_pos hheight, idents_append]
    rfl

theorem Rooted.pop (h : Rooted given chain) {block : BlockData}
    (htop : chain.getLast? = some block) :
    Rooted given chain.dropLast ∧
      apply (idents chain) (itemOf ⟨true, block⟩) = some (idents chain.dropLast) := by
  obtain ⟨below, rfl⟩ := List.getLast?_eq_some_iff.1 htop
  rw [List.dropLast_concat]
  obtain ⟨hbelow, hon⟩ := extends_append.1 h.1
  refine ⟨⟨hbelow, fun other hmem => h.2 other (List.mem_append_left _ hmem)⟩, ?_⟩
  have hheight : block.height = (idents below : List BlockHash).length := hon.1.1
  have hids : (idents (below ++ [block]) : List BlockHash) = idents below ++ [block.id] :=
    idents_append below [block]
  rw [apply, itemOf, if_pos rfl, hids, if_pos, List.dropLast_concat]
  exact ⟨by rw [List.length_append, ← hheight]; rfl, List.getLast?_concat⟩

/-- A follower can apply all that a script tells. -/
theorem follow_script {final : List BlockData} :
    ∀ {chain}, Rooted given chain → Replays (OnTop given) script chain final →
      Rooted given final ∧
        (script.map itemOf).foldlM apply (idents chain) = some (idents final) := by
  induction script with
  | nil =>
      rintro chain hrooted rfl
      exact ⟨hrooted, rfl⟩
  | cons entry script ih =>
      obtain ⟨revert, block⟩ := entry
      intro chain hrooted hreplays
      rw [List.map_cons, List.foldlM_cons]
      cases revert with
      | false =>
          obtain ⟨hon, hrest⟩ : OnTop given chain block ∧
            Replays (OnTop given) script (chain ++ [block]) final := hreplays
          obtain ⟨hpushed, happly⟩ := hrooted.push hon
          rw [happly]
          exact ih hpushed hrest
      | true =>
          obtain ⟨htop, hrest⟩ : chain.getLast? = some block ∧
            Replays (OnTop given) script chain.dropLast final := hreplays
          obtain ⟨hpopped, happly⟩ := hrooted.pop htop
          rw [happly]
          exact ih hpopped hrest

/-! ## What a subscriber has been given -/

/-- The items are those of the script. -/
theorem items_eq (injective : Set.InjOn BlockData.hashId given) {log : List EventRow}
    {items : List (WithHeightAndId BlockHash Bool)}
    (hannounced : List.Forall₂ (Announces given) log items) :
    ∀ {script : List (Entry BlockData)}, (∀ entry ∈ script, entry.name ∈ given) →
      log.map entryOf = script.map (Entry.map BlockData.hashId) → items = script.map itemOf := by
  induction hannounced with
  | nil =>
      intro script _ htells
      rw [List.map_eq_nil_iff.1 htells.symm]
      rfl
  | @cons event item log items hfirst _ ih =>
      intro script hgiven htells
      obtain ⟨entry, script, rfl, hentry, hrest⟩ := List.map_eq_cons_iff.1 htells.symm
      obtain ⟨block, hblock, hhashId, rfl⟩ := hfirst
      have hname : entry.name.hashId = event.blockHashId := congrArg Entry.name hentry
      have hrevert : entry.revert = event.revert := congrArg Entry.revert hentry
      obtain rfl := injective hblock (hgiven entry (by simp)) (hhashId.trans hname.symm)
      rw [List.map_cons, itemOf, hrevert,
        ih (fun other hmem => hgiven other (List.mem_cons_of_mem _ hmem)) hrest.symm]

/-- A follower has a chain of blocks of the node, and with the whole log the stored one. -/
theorem followed (injective : Set.InjOn BlockData.hashId given)
    (h : Committed given network P t db) {count : ℕ}
    {items : List (WithHeightAndId BlockHash Bool)}
    (hannounced : List.Forall₂ (Announces given) (db.event.take count) items) :
    ∃ chain, Rooted given chain ∧ follow items = some (idents chain) ∧
      (db.event.length ≤ count → idents chain = db.chain) := by
  obtain ⟨script, htells, hreplays, -⟩ := exists_script h
  have hnames : ∀ entry ∈ script, entry.name ∈ given :=
    hreplays.forall_names (fun _ _ hon => hon.1) (by simp)
  have hsplit := hreplays
  rw [← List.take_append_drop count script, replays_append] at hsplit
  obtain ⟨chain, htaken, hdropped⟩ := hsplit
  have hroot : Rooted given [] := ⟨trivial, by simp⟩
  obtain ⟨hrooted, hfollow⟩ := follow_script hroot htaken
  have hitems : items = (script.take count).map itemOf := by
    apply items_eq injective hannounced fun entry hmem =>
      hnames entry (List.mem_of_mem_take hmem)
    rw [List.map_take, List.map_take, htells]
  refine ⟨chain, hrooted, ?_, fun hall => ?_⟩
  · rw [follow, hitems]
    exact hfollow
  · have hlength : script.length = db.event.length := by
      simpa using congrArg List.length htells.symm
    rw [List.drop_eq_nil_of_le (hlength.trans_le hall)] at hdropped
    rw [show chain = t.chain from hdropped, h.chain_eq]

end BitcoinIndexer.Follower
