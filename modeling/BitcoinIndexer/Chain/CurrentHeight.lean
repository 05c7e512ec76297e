import BitcoinIndexer.Chain.MinedTransactions

/-!
# The height of a transaction

`tx.current_height` copies what `block_tx` and `block` say about a transaction.  A
batch keeps the copy true.  A reorg does so where it revives only blocks without
transactions and inserts again every transaction that lies above the revived heights.
-/

namespace BitcoinIndexer.CurrentHeight

open BitcoinIndexer.Types
open BitcoinIndexer.Tables
open BitcoinIndexer.Formatter
open BitcoinIndexer.ReferenceChain
open BitcoinIndexer.StoredRows
open BitcoinIndexer.Representation
open BitcoinIndexer.Execution
open BitcoinIndexer.Store
open BitcoinIndexer.ChainState
open BitcoinIndexer.Grounding
open BitcoinIndexer.Following
open BitcoinIndexer.Opening
open BitcoinIndexer.Schedules
open BitcoinIndexer.Guarantees
open BitcoinIndexer.MinedTransactions
open BitcoinIndexer.Interleaving

/-- A block that is not extinct has the transaction, at the given height. -/
def MinedAt (db : Db) (hashId : HashId) (height : BlockHeight) : Prop :=
  ∃ link ∈ db.blockTx, ∃ row ∈ db.block, link.txHashId = hashId ∧
    link.blockHashId = row.hashId ∧ row.extinct = false ∧ row.height = height

instance (db : Db) (hashId : HashId) (height : BlockHeight) :
    Decidable (MinedAt db hashId height) := by
  unfold MinedAt
  infer_instance

def CurrentHeightTrue (db : Db) : Prop :=
  ∀ row ∈ db.tx, ∀ height, row.currentHeight = some height ↔ MinedAt db row.hashId height

/-- The blocks on the chain name a transaction, at the given height. -/
def OnChain (network : Network) (chain : List BlockData) (hashId : HashId)
    (height : BlockHeight) : Prop :=
  ∃ block ∈ chain, block.height = height ∧ hashId ∈ txHashIds network block

variable {given : Set BlockData} {network : Network} {S : Setting} {t : BlockTree}
variable {db after : Db} {mode : Mode} {inputsUtxoMap : UtxoDetailsMap}
variable {chain blocks : List BlockData} {hashId : HashId} {height : BlockHeight}

theorem onChain_append {more : List BlockData} : OnChain network (chain ++ more) hashId height ↔
    OnChain network chain hashId height ∨ OnChain network more hashId height := by
  simp [OnChain, or_and_right, exists_or]

theorem minedAt_iff (hshows : Shows t.known t.chain db) (hlinked : Linked network t.known db) :
    MinedAt db hashId height ↔ OnChain network t.chain hashId height := by
  constructor
  · rintro ⟨link, hlink, row, hrow, rfl, hhash, hextinct, rfl⟩
    rw [hshows.rows] at hrow
    obtain ⟨block, hblock, rfl⟩ := List.mem_map.1 hrow
    obtain ⟨other, hother, hname, hin⟩ := (hlinked link).1 hlink
    obtain rfl : other = block :=
      List.inj_on_of_nodup_map t.distinct hother hblock (hname.symm.trans hhash)
    exact ⟨other, (rowIn_extinct t.chain other).1 hextinct, rfl, hin⟩
  · rintro ⟨block, hblock, rfl, hin⟩
    have hknown := t.stored block hblock
    refine ⟨⟨block.hashId, hashId⟩, (hlinked _).2 ⟨block, hknown, rfl, hin⟩, rowIn t.chain block,
      ?_, rfl, rfl, (rowIn_extinct t.chain block).2 hblock, rfl⟩
    rw [hshows.rows]
    exact List.mem_map_of_mem hknown

/-! ## Batches -/

/-- The rows a batch does not name are true of the chain below it; then all are true of
the chain with it. -/
theorem true_executed (honce : OncePerChain given network)
    (hgiven : ∀ block ∈ chain ++ blocks, block ∈ given) (hlinked : Extends [] (chain ++ blocks))
    (htrue : ∀ row ∈ db.tx, (∀ block ∈ blocks, row.hashId ∉ txHashIds network block) →
      ∀ height, row.currentHeight = some height ↔ OnChain network chain row.hashId height)
    (hexecuted : Executed mode (rowsOf network inputsUtxoMap blocks) db after)
    (hnodup : (after.tx.map (·.hashId)).Nodup) :
    ∀ row ∈ after.tx, ∀ height, row.currentHeight = some height ↔
      OnChain network (chain ++ blocks) row.hashId height := by
  intro row hmem height
  obtain ⟨hold, hunnamed⟩ | ⟨block, hblock, hheight, hin⟩ := mem_tx_executed hexecuted hnodup hmem
  · rw [htrue row hold hunnamed height, onChain_append]
    constructor
    · exact Or.inl
    · rintro (hbelow | ⟨block, hblock, -, hin⟩)
      · exact hbelow
      · exact absurd hin (hunnamed block hblock)
  · rw [hheight]
    constructor
    · intro heq
      obtain rfl := Option.some.inj heq
      exact ⟨block, List.mem_append_right _ hblock, rfl, hin⟩
    · rintro ⟨other, hother, rfl, hinOther⟩
      have heq := honce.block_eq hgiven hlinked (List.mem_append_right _ hblock) hother hin hinOther
      rw [heq]

/-! ## Reorgs -/

/-- The rows of `tx` after the heights of the revived blocks have been cleared. -/
theorem mem_tx_reviveAll (revived : List BlockData) :
    ∀ {db : Db} {row : TxRow}, row ∈ (reviveAll revived db).tx → ∃ old ∈ db.tx,
      { old with currentHeight := row.currentHeight } = row ∧
        ∀ height, row.currentHeight = some height ↔
          old.currentHeight = some height ∧ height ∉ revived.map (·.height) := by
  induction revived with
  | nil =>
      intro db row hmem
      exact ⟨row, hmem, rfl, by simp⟩
  | cons block revived ih =>
      intro db row hmem
      obtain ⟨middle, hmiddle, hsame, hheights⟩ := ih hmem
      obtain ⟨old, hold, rfl⟩ := List.mem_map.1 hmiddle
      refine ⟨old, hold, ?_, fun height => ?_⟩
      · rw [← hsame]
        split_ifs <;> rfl
      · rw [hheights height, List.map_cons, List.mem_cons, not_or]
        by_cases hcleared : old.currentHeight = some block.height
        · rw [if_pos hcleared, hcleared]
          constructor
          · rintro ⟨hnone, -⟩
            exact absurd hnone (by simp)
          · rintro ⟨heq, hne, -⟩
            exact absurd (Option.some.inj heq).symm hne
        · rw [if_neg hcleared]
          constructor
          · rintro ⟨hcurrent, hout⟩
            refine ⟨hcurrent, ?_, hout⟩
            rintro rfl
            exact hcleared hcurrent
          · rintro ⟨hcurrent, -, hout⟩
            exact ⟨hcurrent, hout⟩

theorem map_hashId_reviveAll (revived : List BlockData) (db : Db) :
    (reviveAll revived db).tx.map (·.hashId) = db.tx.map (·.hashId) := by
  induction revived generalizing db with
  | nil => rfl
  | cons block revived ih =>
      rw [reviveAll, List.foldl_cons]
      refine (ih _).trans ?_
      change (db.tx.map _).map _ = _
      rw [List.map_map]
      apply List.map_congr_left
      intro row _
      simp only [Function.comp_apply]
      split_ifs <;> rfl

/-- A reorg that keeps `current_height` true: it revives no transactions, and those of
the extinct blocks above the revived heights are in the blocks it inserts. -/
def Tracked (network : Network) (db : Db) : Commit → Prop
  | .batch _ _ => True
  | .reorg _ height revived new =>
      (∀ block ∈ revived, block.data.txdata = []) ∧
        ∀ link ∈ db.blockTx, ∀ row ∈ db.block, link.blockHashId = row.hashId →
          row.extinct = false → height + revived.length ≤ row.height →
            ∃ block ∈ new, link.txHashId ∈ txHashIds network block

instance (network : Network) (db : Db) (commit : Commit) : Decidable (Tracked network db commit) := by
  cases commit <;> unfold Tracked <;> infer_instance

/-- The rows the new blocks do not name are true of the chain with the revived ones. -/
theorem true_reorganized {revived new : List BlockData} (hshows : Shows t.known t.chain db)
    (hlinks : Linked network t.known db)
    (htrue : ∀ row ∈ db.tx, ∀ height, row.currentHeight = some height ↔
      OnChain network t.chain row.hashId height)
    (hextends : Extends (idents (t.chain.take height)) revived)
    (htracked : Tracked network db (.reorg mode height revived new)) :
    ∀ row ∈ (reorganized height revived db).tx,
      (∀ block ∈ new, row.hashId ∉ txHashIds network block) → ∀ minedHeight,
        row.currentHeight = some minedHeight ↔
          OnChain network (t.chain.take height ++ revived) row.hashId minedHeight := by
  intro row hmem hunnamed minedHeight
  obtain ⟨old, hold, hsame, hheights⟩ := mem_tx_reviveAll revived hmem
  have hid : old.hashId = row.hashId := by rw [← hsame]
  have hrange : revived.map (·.height) =
      List.range' (t.chain.take height).length revived.length := by
    have hmap := hextends.map_height
    rwa [length_idents] at hmap
  rw [hheights, hrange, htrue old hold, hid, onChain_append]
  constructor
  · rintro ⟨⟨block, hblock, rfl, hin⟩, hout⟩
    by_cases hbelow : block.height < height
    · exact .inl ⟨block, (mem_take_iff t.linked height).2 ⟨hblock, hbelow⟩, rfl, hin⟩
    · -- above the revived heights, so one of the new blocks has it
      have hlow := height_lt_of_mem t.linked hblock
      have hstart : (t.chain.take height).length = height :=
        List.length_take_of_le (lt_of_le_of_lt (not_lt.1 hbelow) hlow).le
      have habove : height + revived.length ≤ block.height := by
        rw [hstart] at hout
        exact not_lt.1 fun hlt => hout (List.mem_range'_1.2 ⟨not_lt.1 hbelow, hlt⟩)
      obtain ⟨other, hother, hnamed⟩ := htracked.2 ⟨block.hashId, row.hashId⟩
        ((hlinks _).2 ⟨block, t.stored block hblock, rfl, hin⟩) (rowIn t.chain block)
        (by rw [hshows.rows]; exact List.mem_map_of_mem (t.stored block hblock)) rfl
        ((rowIn_extinct t.chain block).2 hblock) habove
      exact absurd hnamed (hunnamed other hother)
  · rintro (⟨block, hblock, rfl, hin⟩ | ⟨block, hblock, -, hin⟩)
    · obtain ⟨hchain, hbelow⟩ := (mem_take_iff t.linked height).1 hblock
      have hlow : block.height < (t.chain.take height).length := by
        rw [List.length_take]
        exact lt_min hbelow (height_lt_of_mem t.linked hchain)
      refine ⟨⟨block, hchain, rfl, hin⟩, fun hrevived => ?_⟩
      exact absurd (List.mem_range'_1.1 hrevived).1 (not_le.2 hlow)
    · simp [txHashIds, BlockData.txs, htracked.1 block hblock] at hin

/-! ## Runs -/

/-- What a committed state says about transactions. -/
structure Mined (network : Network) (t : BlockTree) (db : Db) : Prop where
  links : Linked network t.known db
  current : (db.tx.map (·.hashId)).Nodup → ∀ row ∈ db.tx, ∀ height,
    row.currentHeight = some height ↔ OnChain network t.chain row.hashId height
  keyed : db.schema = .normal → (db.tx.map (·.hashId)).Nodup

/-- Runs whose reorgs keep `current_height` true. -/
def tracked (given : Set BlockData) (injective : Set.InjOn BlockData.hashId given)
    (network : Network) : Setting where
  given := given
  injective := injective
  network := network
  admits := Tracked network
  tolerates := fun _ => True
  failed := trivial
  batch := fun _ _ _ _ _ _ => trivial
  reorg := fun _ _ _ _ _ _ _ _ => trivial
  schema := fun _ _ => trivial

variable {injective : Set.InjOn BlockData.hashId given}

theorem mined (honce : OncePerChain given network)
    (h : (tracked given injective network).Committed t db) : Mined network t db := by
  induction h with
  | fresh bulkMode => exact ⟨by simp [Linked, BlockTree.empty, Db.empty], by simp [Db.empty],
      by simp [Db.empty]⟩
  | @batch t t' db after mode inputsUtxoMap queries blocks h hready hgiven hextends hP hqueries
      hexecute hknown hchain ih =>
      have hexecuted := executed (saying_of_fmt (heights_nodup hextends) hqueries) hexecute
      have hall : ∀ block ∈ t'.chain, block ∈ given := fun block hmem => by
        obtain hold | hnew := List.mem_append.1 (hchain ▸ hmem)
        · exact h.given block (t.stored block hold)
        · exact hgiven block hnew
      have hlinked := t'.linked
      rw [hchain] at hall hlinked
      refine ⟨hknown ▸ ih.links.executed hexecuted, fun hnodup => ?_, fun hschema => ?_⟩
      · have hbefore : (db.tx.map (·.hashId)).Nodup :=
          hnodup.sublist (initial_tx_executed hexecuted).sublist
        rw [hchain]
        exact true_executed honce hall hlinked (fun row hmem _ => ih.current hbefore row hmem)
          hexecuted hnodup
      · rw [hexecuted.schema] at hschema
        exact nodup_tx_executed hexecuted hschema (ih.keyed hschema)
  | @reorg t t' db after mode inputsUtxoMap queries height revived new h hready hgiven hrevived
      hextends hP hqueries hexecute hknown hchain ih =>
      have hparts := extends_append.1 hextends
      have hexecuted := executed (saying_of_fmt (heights_nodup hparts.2) hqueries) hexecute
      have hall : ∀ block ∈ t'.chain, block ∈ given := fun block hmem => by
        have hmem' := hchain ▸ hmem
        rw [List.mem_append, List.mem_append] at hmem'
        obtain hkept | hold | hnew := hmem'
        · exact h.given block (t.stored block (List.mem_of_mem_take hkept))
        · exact h.given block (hrevived block hold)
        · exact hgiven block hnew
      have hlinked := t'.linked
      rw [hchain, ← List.append_assoc] at hall hlinked
      obtain ⟨eventIdSeq, event, rows, tx, hframe⟩ := reorganized_frame height revived db
      have hlinks : Linked network t.known (reorganized height revived db) := by
        rw [Linked, hframe]
        exact ih.links
      have hschema : (reorganized height revived db).schema = db.schema := by rw [hframe]
      have hids : (reorganized height revived db).tx.map (·.hashId) = db.tx.map (·.hashId) :=
        map_hashId_reviveAll revived _
      refine ⟨hknown ▸ hlinks.executed hexecuted, fun hnodup => ?_, fun hnormal => ?_⟩
      · have hbefore : (db.tx.map (·.hashId)).Nodup := by
          rw [← hids]
          exact hnodup.sublist (initial_tx_executed hexecuted).sublist
        have htracked : Tracked network db (.reorg mode height revived new) := hP
        rw [hchain, ← List.append_assoc]
        exact true_executed honce hall hlinked
          (true_reorganized h.shows ih.links (ih.current hbefore) hparts.1 htracked) hexecuted
          hnodup
      · rw [hexecuted.schema] at hnormal
        apply nodup_tx_executed hexecuted hnormal
        rw [hids]
        exact ih.keyed (hschema ▸ hnormal)
  | @schema t db mode h hunique ih =>
      exact ⟨ih.links, ih.current, fun hnormal => (hunique.2 hnormal).2.1⟩
  | bulkMode bulk h ih => exact ⟨ih.links, ih.current, ih.keyed⟩
  | burn transaction h ih => exact ⟨ih.links, ih.current, ih.keyed⟩

/-- In every run whose reorgs are tracked, a state in the normal schema has true heights. -/
theorem current_height_true (given : Set BlockData) (injective : Set.InjOn BlockData.hashId given)
    (network : Network) (honce : OncePerChain given network) (labels : List StoreLabel)
    (hfollows : (prefetched (tracked given injective network)).follows system labels initial) :
    let db := (system.run labels initial).shared.db
    db.schema = .normal → CurrentHeightTrue db := by
  intro db hschema row hmem height
  obtain ⟨t, hsettled⟩ := (kept_run _ labels hfollows).settled
  have hcommitted := hsettled.committed
  have hmined := mined honce hcommitted
  rw [minedAt_iff hcommitted.shows hmined.links]
  exact hmined.current (hmined.keyed hschema) row hmem height

/-! ## Two reorgs -/

/-- Where equal ids are at equal heights, no chain has a transaction twice. -/
theorem oncePerChain_of_heights (blocks : List BlockData)
    (h : ∀ left ∈ blocks, ∀ right ∈ blocks, ∀ leftTx ∈ left.txs network,
      ∀ rightTx ∈ right.txs network, hashToHashId leftTx.1 = hashToHashId rightTx.1 →
        leftTx.1 = rightTx.1 ∧ left.height = right.height) :
    OncePerChain {block | block ∈ blocks} network where
  injective := by
    rintro _ ⟨left, hleft, leftTx, hleftTx, rfl⟩ _ ⟨right, hright, rightTx, hrightTx, rfl⟩ heq
    exact (h left hleft right hright leftTx hleftTx rightTx hrightTx heq).1
  once := by
    intro chain hgiven hlinked left hleft right hright txid hinLeft hinRight
    obtain ⟨leftTx, hleftTx, rfl⟩ := List.mem_map.1 hinLeft
    obtain ⟨rightTx, hrightTx, heq⟩ := List.mem_map.1 hinRight
    have hheight := (h left (hgiven left hleft) right (hgiven right hright) leftTx hleftTx rightTx
      hrightTx (congrArg _ heq.symm)).2
    exact eq_of_height hlinked hleft hright hheight

/-- A coinbase transaction without outputs, its id starting with the given byte. -/
def coinbaseOf (byte : UInt8) : Transaction :=
  ⟨hashStarting byte, 4, 0, [⟨⟨⟨List.replicate 32 0, by simp⟩, 2 ^ 32 - 1⟩, []⟩], []⟩

def minedBlock (height : BlockHeight) (id prev coinbase : UInt8) : BlockData :=
  blockWith height id prev [coinbaseOf coinbase]

/-- A reorg at height 1 onto blocks the first of which has the given coinbase. -/
def overtaken (coinbase : UInt8) : List BlockData :=
  [minedBlock 0 1 0 11, minedBlock 1 2 1 12, minedBlock 1 3 1 coinbase, minedBlock 2 4 3 14,
    minedBlock 3 5 4 15]

@[irreducible]
def overtaking (nodeChainHeadHeight : BlockHeight) (coinbase : UInt8) : List StoreLabel :=
  opening nodeChainHeadHeight .bitcoin ++
    (overtaken coinbase).flatMap fun block => calling (.insert block) 40

theorem overtaken_injective (coinbase : UInt8) :
    Set.InjOn BlockData.hashId {block | block ∈ overtaken coinbase} := by
  have hnodup : ((overtaken coinbase).map BlockData.hashId).Nodup := by
    change ([1, 2, 3, 4, 5].map fun byte => hashToHashId (hashStarting byte)).Nodup
    decide
  exact fun left hleft right hright heq => List.inj_on_of_nodup_map hnodup hleft hright heq

instance (coinbase : UInt8) (injective) (network : Network) : DecidablePred (· ∈
    (tracked {block | block ∈ overtaken coinbase} injective network).given) :=
  fun block => inferInstanceAs (Decidable (block ∈ overtaken coinbase))

instance (coinbase : UInt8) (injective) (network : Network) : DecidablePred (· ∈
    (unrestricted {block | block ∈ overtaken coinbase} injective network).given) :=
  fun block => inferInstanceAs (Decidable (block ∈ overtaken coinbase))

instance (db : Db) (commit : Commit) : Decidable ((tracked given injective network).admits
    db commit) := inferInstanceAs (Decidable (Tracked network db commit))

/-- The new block at height 1 has the transaction of the old one. -/
theorem kept_coinbase_true :
    let db := (system.run (overtaking 0 12) initial).shared.db
    db.tx.length = 4 ∧ CurrentHeightTrue db := by
  have hfollows : (prefetched (tracked {block | block ∈ overtaken 12} (overtaken_injective 12)
      .bitcoin)).follows system (overtaking 0 12) initial :=
    follows_of_check (overtaking 0 12) initial (by decide +kernel)
  have honce : OncePerChain {block | block ∈ overtaken 12} .bitcoin :=
    oncePerChain_of_heights (overtaken 12) (by decide)
  have htrue := current_height_true {block | block ∈ overtaken 12} (overtaken_injective 12) .bitcoin
    honce (overtaking 0 12) hfollows
  have hnormal : (system.run (overtaking 0 12) initial).shared.db.schema = .normal := by
    decide +kernel
  have hlength : (system.run (overtaking 0 12) initial).shared.db.tx.length = 4 := by
    decide +kernel
  exact ⟨hlength, htrue hnormal⟩

/-- The transaction of the old block at height 1 is in no block of the chain, but keeps
the height. -/
theorem orphaned_coinbase_false :
    ¬ ∀ (given : Set BlockData) (injective : Set.InjOn BlockData.hashId given) (network : Network),
      OncePerChain given network → ∀ labels : List StoreLabel,
        (prefetched (unrestricted given injective network)).follows system labels initial →
          (system.run labels initial).shared.db.schema = .normal →
            CurrentHeightTrue (system.run labels initial).shared.db := by
  intro h
  have hfollows : (prefetched (unrestricted {block | block ∈ overtaken 13} (overtaken_injective 13)
      .bitcoin)).follows system (overtaking 0 13) initial :=
    follows_of_check (overtaking 0 13) initial (by decide +kernel)
  have honce : OncePerChain {block | block ∈ overtaken 13} .bitcoin :=
    oncePerChain_of_heights (overtaken 13) (by decide)
  have hnormal : (system.run (overtaking 0 13) initial).shared.db.schema = .normal := by
    decide +kernel
  have htrue := h {block | block ∈ overtaken 13} (overtaken_injective 13) .bitcoin honce
    (overtaking 0 13) hfollows hnormal
  have hstale : ∃ row ∈ (system.run (overtaking 0 13) initial).shared.db.tx,
      row.currentHeight = some 1 ∧
        ¬ MinedAt (system.run (overtaking 0 13) initial).shared.db row.hashId 1 := by
    decide +kernel
  obtain ⟨row, hmem, hheight, hout⟩ := hstale
  exact hout ((htrue row hmem 1).1 hheight)

end BitcoinIndexer.CurrentHeight
