import BitcoinIndexer.Core.CancelingLog
import BitcoinIndexer.Db.Execution

/-!
# What the block and event tables show

`Shows known chain` says that the rows of `block` are those of the blocks `known`,
extinct unless they are on `chain`, and that the event log replays to `chain`.  The
queries and the statements of a reorg are described in these terms.
-/

namespace BitcoinIndexer.Representation

open BitcoinIndexer.Types
open BitcoinIndexer.Tables
open BitcoinIndexer.Formatter
open BitcoinIndexer.ReferenceChain
open BitcoinIndexer.CancelingLog
open BitcoinIndexer.Execution

/-- The row of a known block. -/
def rowIn (chain : List BlockData) (block : BlockData) : BlockRow :=
  { BlockFormatter.row block with extinct := decide (block ∉ chain) }

def hashIds (blocks : List BlockData) : List HashId := blocks.map BlockData.hashId

def entryOf (row : EventRow) : Entry HashId := ⟨row.revert, row.blockHashId⟩

/-- A reader accepts a pushed block on top of its predecessor, or a block of height 0
on the empty stack. -/
def Links (known : List BlockData) (stack : List HashId) (name : HashId) : Prop :=
  ∃ block ∈ known, block.hashId = name ∧
    (block.height = 0 ∧ stack = [] ∨
      stack.getLast? = some (hashToHashId block.data.header.prevBlockhash))

/-- The log replays to `stack`; its ids ascend and lie below the sequence. -/
structure Logged (known : List BlockData) (stack : List HashId) (db : Db) : Prop where
  log : Replays (Links known) (db.event.map entryOf) [] stack
  ascending : db.event.Pairwise fun before after => before.id < after.id
  below : ∀ row ∈ db.event, row.id < db.eventIdSeq

structure Shows (known chain : List BlockData) (db : Db) : Prop where
  rows : db.block = known.map (rowIn chain)
  logged : Logged known (hashIds chain) db

@[simp]
theorem rowIn_height (chain : List BlockData) (block : BlockData) :
    (rowIn chain block).height = block.height := rfl

@[simp]
theorem rowIn_hashId (chain : List BlockData) (block : BlockData) :
    (rowIn chain block).hashId = block.hashId := rfl

@[simp]
theorem rowIn_extinct (chain : List BlockData) (block : BlockData) :
    (rowIn chain block).extinct = false ↔ block ∈ chain := by
  simp [rowIn]

theorem idents_hashIds (blocks : List BlockData) :
    (idents blocks).map hashToHashId = hashIds blocks := by
  simp [idents, hashIds, BlockData.hashId, Function.comp_def]

/-! ## Chains of blocks -/

section Linked

variable {chain : List BlockData}

theorem height_of_getElem (hlinked : Extends [] chain) {index : ℕ} {block : BlockData}
    (hget : chain[index]? = some block) : block.height = index := by
  simpa using hlinked.height_eq hget

theorem getElem_of_mem (hlinked : Extends [] chain) {block : BlockData} (hmem : block ∈ chain) :
    chain[block.height]? = some block := by
  obtain ⟨index, hlt, rfl⟩ := List.mem_iff_getElem.1 hmem
  have hget := List.getElem?_eq_getElem hlt
  rwa [height_of_getElem hlinked hget]

theorem height_lt_of_mem (hlinked : Extends [] chain) {block : BlockData} (hmem : block ∈ chain) :
    block.height < chain.length := by
  simpa using (hlinked.height_bounds hmem).2

theorem eq_of_height (hlinked : Extends [] chain) {left right : BlockData}
    (hleft : left ∈ chain) (hright : right ∈ chain) (hheight : left.height = right.height) :
    left = right := by
  have hget := getElem_of_mem hlinked hleft
  rw [hheight, getElem_of_mem hlinked hright] at hget
  exact (Option.some.inj hget).symm

theorem mem_take_iff (hlinked : Extends [] chain) {block : BlockData} (height : ℕ) :
    block ∈ chain.take height ↔ block ∈ chain ∧ block.height < height := by
  have hfilter := hlinked.filter_lt height
  simp only [List.length_nil, Nat.sub_zero] at hfilter
  rw [← hfilter]
  simp

theorem mem_drop_iff (hlinked : Extends [] chain) {block : BlockData} (height : ℕ) :
    block ∈ chain.drop height ↔ block ∈ chain ∧ height ≤ block.height := by
  have hfilter := hlinked.filter_ge height
  simp only [List.length_nil, Nat.sub_zero] at hfilter
  rw [← hfilter]
  simp

end Linked

/-! ## Events -/

theorem entryOf_eventRows (revert : Bool) (seq : ℕ) (names : List HashId) :
    (eventRows revert seq names).map entryOf = names.map fun name => ⟨revert, name⟩ := by
  induction names generalizing seq with
  | nil => rfl
  | cons name names ih => simp [eventRows, entryOf, ih]

theorem mem_eventRows {revert : Bool} {seq : ℕ} {names : List HashId} {row : EventRow}
    (hmem : row ∈ eventRows revert seq names) : seq ≤ row.id ∧ row.id < seq + names.length := by
  induction names generalizing seq with
  | nil => simp [eventRows] at hmem
  | cons name names ih =>
      obtain rfl | hmem := List.mem_cons.1 hmem
      · simp
      · have hbounds := ih hmem
        simp only [List.length_cons]
        omega

theorem eventRows_ascending (revert : Bool) (seq : ℕ) (names : List HashId) :
    (eventRows revert seq names).Pairwise fun before after => before.id < after.id := by
  induction names generalizing seq with
  | nil => exact List.Pairwise.nil
  | cons name names ih =>
      apply List.Pairwise.cons _ (ih (seq + 1))
      intro row hmem
      have hbounds := mem_eventRows hmem
      simp only
      omega

section Shown

variable {known chain : List BlockData} {db : Db}

/-- Events at the end of the log: their ids continue the ascending order. -/
theorem Logged.insertEvents {stack final : List HashId} (h : Logged known stack db)
    {revert : Bool} {names : List HashId}
    (hlog : Replays (Links known) (names.map fun name => ⟨revert, name⟩) stack final) :
    Logged known final (db.insertEvents revert names) where
  log := by
    rw [Db.insertEvents, List.map_append, entryOf_eventRows]
    exact h.log.append hlog
  ascending := by
    apply List.pairwise_append.2 ⟨h.ascending, eventRows_ascending revert _ names, _⟩
    intro before hbefore after hafter
    exact lt_of_lt_of_le (h.below before hbefore) (mem_eventRows hafter).1
  below := by
    intro row hmem
    change row.id < db.eventIdSeq + names.length
    obtain hold | hnew := List.mem_append.1 hmem
    · exact Nat.lt_add_right _ (h.below row hold)
    · exact (mem_eventRows hnew).2

theorem Logged.congr {stack : List HashId} (h : Logged known stack db) {db' : Db}
    (hevent : db'.event = db.event) (hseq : db.eventIdSeq ≤ db'.eventIdSeq) :
    Logged known stack db' where
  log := by rw [hevent]; exact h.log
  ascending := by rw [hevent]; exact h.ascending
  below := by
    rw [hevent]
    exact fun row hmem => lt_of_lt_of_le (h.below row hmem) hseq

/-- The ids of a chain can be pushed one after the other. -/
theorem links_of_extends {blocks : List BlockData} (hsub : ∀ block ∈ blocks, block ∈ known)
    (hextends : Extends (idents chain) blocks) :
    ∀ before name after, hashIds blocks = before ++ name :: after →
      Links known (hashIds chain ++ before) name := by
  intro before name after hsplit
  obtain ⟨left, right, rfl, hleft, hright⟩ := List.map_eq_append_iff.1 hsplit
  obtain ⟨block, rest, rfl, hname, -⟩ := List.map_eq_cons_iff.1 hright
  have hlink := (extends_append.1 hextends).2.1
  refine ⟨block, hsub block (by simp), hname, ?_⟩
  have hstack : hashIds chain ++ before =
      (idents chain ++ idents left).map hashToHashId := by
    rw [List.map_append, idents_hashIds, idents_hashIds, ← hleft]
    rfl
  rw [hstack]
  by_cases hzero : block.height = 0
  · apply Or.inl
    have hlength : (idents chain ++ idents left).length = 0 := hlink.1.symm.trans hzero
    exact ⟨hzero, by rw [List.length_eq_zero_iff.1 hlength, List.map_nil]⟩
  · apply Or.inr
    have hprev := hlink.2 (Nat.pos_of_ne_zero hzero)
    rw [hlink.1, ← List.getLast?_eq_getElem?] at hprev
    rw [List.getLast?_map, hprev]
    rfl

theorem Links.mono {stack : List HashId} {name : HashId} (h : Links known stack name)
    {more : List BlockData} (hsub : ∀ block ∈ known, block ∈ more) : Links more stack name := by
  obtain ⟨block, hmem, hlink⟩ := h
  exact ⟨block, hsub block hmem, hlink⟩

theorem Logged.mono {stack : List HashId} (h : Logged known stack db) {more : List BlockData}
    (hsub : ∀ block ∈ known, block ∈ more) : Logged more stack db :=
  ⟨h.log.mono fun _ _ hlink => hlink.mono hsub, h.ascending, h.below⟩

/-! ## Reading the block table -/

theorem filter_height (hnodup : known.Nodup) (hlinked : Extends [] chain)
    (hstored : ∀ block ∈ chain, block ∈ known) (height : ℕ) :
    known.filter (fun block => decide (block.height = height ∧ block ∈ chain)) =
      chain[height]?.toList := by
  have hperm : (known.filter fun block => decide (block.height = height ∧ block ∈ chain)).Perm
      chain[height]?.toList := by
    apply (List.perm_ext_iff_of_nodup (hnodup.filter _) _).2
    · intro block
      simp only [List.mem_filter, decide_eq_true_eq, Option.mem_toList]
      constructor
      · rintro ⟨-, rfl, hmem⟩
        exact getElem_of_mem hlinked hmem
      · intro hget
        have hmem := List.mem_of_getElem? hget
        exact ⟨hstored block hmem, height_of_getElem hlinked hget, hmem⟩
    · cases chain[height]? <;> simp
  cases hget : chain[height]? with
  | none => simpa [hget] using hperm
  | some block => simpa [hget] using hperm

theorem Shows.blocksAtHeight (h : Shows known chain db) (hnodup : known.Nodup)
    (hlinked : Extends [] chain) (hstored : ∀ block ∈ chain, block ∈ known) (height : ℕ) :
    db.blocksAtHeight height =
      chain[height]?.toList.map fun block => (block.hashId, hashRest block.id) := by
  rw [Db.blocksAtHeight, h.rows, List.filter_map, List.map_map,
    ← filter_height hnodup hlinked hstored]
  simp [Function.comp_def, rowIn, BlockFormatter.row, BlockData.hashId]

/-- What `joinHash` makes of the row at a height. -/
theorem Shows.hashAtHeight (h : Shows known chain db) (hnodup : known.Nodup)
    (hlinked : Extends [] chain) (hstored : ∀ block ∈ chain, block ∈ known) (height : ℕ) :
    ((db.blocksAtHeight height).head?.bind fun parts => hashIdAndRestToHash parts.1 parts.2) =
      (idents chain)[height]? := by
  rw [h.blocksAtHeight hnodup hlinked hstored, idents, List.getElem?_map]
  cases chain[height]? <;> simp [BlockData.hashId]

theorem max_heights {heights : List ℕ} {count : ℕ} (hbound : ∀ height ∈ heights, height < count)
    (htop : ∀ top, count = top + 1 → top ∈ heights) :
    (heights.max?.map (· + 1)).getD 0 = count := by
  cases count with
  | zero =>
      have hnil : heights = [] := by
        apply List.eq_nil_iff_forall_not_mem.2
        exact fun height hmem => absurd (hbound height hmem) (Nat.not_lt_zero _)
      simp [hnil]
  | succ top =>
      have hmax : heights.max? = some top :=
        List.max?_eq_some_iff.2
          ⟨htop top rfl, fun height hmem => Nat.lt_succ_iff.1 (hbound height hmem)⟩
      simp [hmax]

theorem exists_top (hlinked : Extends [] chain) {top : ℕ} (htop : chain.length = top + 1) :
    ∃ block ∈ chain, block.height = top := by
  have hlt : top < chain.length := by omega
  exact ⟨chain[top], List.getElem_mem hlt,
    height_of_getElem hlinked (List.getElem?_eq_getElem hlt)⟩

theorem Shows.readDbChainBlockCount (h : Shows known chain db) (hlinked : Extends [] chain)
    (hstored : ∀ block ∈ chain, block ∈ known)
    (hbounded : ∀ block ∈ known, block.height < chain.length) :
    db.readDbChainBlockCount = chain.length := by
  rw [Db.readDbChainBlockCount, h.rows]
  apply max_heights
  · simpa using hbounded
  · intro top htop
    obtain ⟨block, hmem, hheight⟩ := exists_top hlinked htop
    simpa using ⟨block, hstored block hmem, hheight⟩

theorem Shows.readDbChainCurrentBlockCount (h : Shows known chain db)
    (hlinked : Extends [] chain) (hstored : ∀ block ∈ chain, block ∈ known) :
    db.readDbChainCurrentBlockCount = chain.length := by
  rw [Db.readDbChainCurrentBlockCount, h.rows]
  apply max_heights
  · intro height hmem
    obtain ⟨row, hrow, rfl⟩ := List.mem_map.1 hmem
    obtain ⟨hrow, hextinct⟩ := List.mem_filter.1 hrow
    obtain ⟨block, -, rfl⟩ := List.mem_map.1 hrow
    exact height_lt_of_mem hlinked ((rowIn_extinct chain block).1 (by simpa using hextinct))
  · intro top htop
    obtain ⟨block, hmem, hheight⟩ := exists_top hlinked htop
    apply List.mem_map.2 ⟨rowIn chain block, _, hheight⟩
    apply List.mem_filter.2
    exact ⟨List.mem_map_of_mem (hstored block hmem),
      by simpa using (rowIn_extinct chain block).2 hmem⟩

theorem filterMap_getElem_range {α : Type} (l : List α) :
    (List.range l.length).filterMap (fun index => l[index]?) = l := by
  induction l using List.reverseRecOn with
  | nil => rfl
  | append_singleton l a ih =>
      have hrest : (List.range l.length).filterMap (fun index => (l ++ [a])[index]?) = l := by
        conv_rhs => rw [← ih]
        apply List.filterMap_congr
        intro index hmem
        exact List.getElem?_append_left (List.mem_range.1 hmem)
      rw [List.length_append, List.length_singleton, List.range_succ, List.filterMap_append, hrest]
      simp

theorem Shows.chain_eq (h : Shows known chain db) (hnodup : known.Nodup)
    (hlinked : Extends [] chain) (hstored : ∀ block ∈ chain, block ∈ known) :
    db.chain = idents chain := by
  have hpoint : (fun height => (db.blocksAtHeight height).head?.bind fun parts =>
      hashIdAndRestToHash parts.1 parts.2) = fun height => (idents chain)[height]? := by
    funext height
    exact h.hashAtHeight hnodup hlinked hstored height
  rw [Db.chain, h.readDbChainCurrentBlockCount hlinked hstored, hpoint,
    ← length_idents (ι := BlockHash) chain]
  exact filterMap_getElem_range _

theorem filter_hashId (hdistinct : (known.map BlockData.hashId).Nodup) {block : BlockData}
    (hmem : block ∈ known) :
    known.filter (fun other => decide (other.hashId = block.hashId)) = [block] := by
  apply List.perm_singleton.1
  apply (List.perm_ext_iff_of_nodup (hdistinct.of_map.filter _) (by simp)).2
  intro other
  simp only [List.mem_filter, decide_eq_true_eq, List.mem_singleton]
  constructor
  · exact fun h => List.inj_on_of_nodup_map hdistinct h.1 hmem h.2
  · rintro rfl
    exact ⟨hmem, rfl⟩

/-- The row of a known block is found by its hash id. -/
theorem Shows.extinct_known (h : Shows known chain db)
    (hdistinct : (known.map BlockData.hashId).Nodup) {block : BlockData} (hmem : block ∈ known) :
    db.readDbBlockExtinctByHashId block.hashId = some (decide (block ∉ chain)) := by
  have hrows : (db.block.filter fun row => decide (row.hashId = block.hashId)) =
      [rowIn chain block] := by
    rw [h.rows, List.filter_map]
    exact congrArg (List.map (rowIn chain)) (filter_hashId hdistinct hmem)
  rw [Db.readDbBlockExtinctByHashId, hrows]
  rfl

theorem Shows.extinct_unknown (h : Shows known chain db) {hashId : HashId}
    (hunknown : hashId ∉ known.map BlockData.hashId) :
    db.readDbBlockExtinctByHashId hashId = none := by
  have hnil : (db.block.filter fun row => decide (row.hashId = hashId)) = [] := by
    apply List.filter_eq_nil_iff.2
    intro row hmem
    rw [h.rows] at hmem
    obtain ⟨block, hblock, rfl⟩ := List.mem_map.1 hmem
    have hne : block.hashId ≠ hashId := fun heq =>
      hunknown (heq ▸ List.mem_map_of_mem hblock)
    exact fun hrow => hne (of_decide_eq_true hrow)
  rw [Db.readDbBlockExtinctByHashId, hnil]
  rfl

/-! ## The statements of a reorg -/

/-- The rows a revert statement selects, in its order. -/
theorem Shows.revert_names (h : Shows known chain db) (hnodup : known.Nodup)
    (hlinked : Extends [] chain) (hstored : ∀ block ∈ chain, block ∈ known) (height : ℕ) :
    (byHeightDesc (db.block.filter fun row =>
      decide (height ≤ row.height ∧ row.extinct = false))).map (·.hashId) =
      (hashIds (chain.drop height)).reverse := by
  have hselected : (db.block.filter fun row =>
      decide (height ≤ row.height ∧ row.extinct = false)).Perm
      ((chain.drop height).reverse.map (rowIn chain)) := by
    have hfilter : (db.block.filter fun row =>
        decide (height ≤ row.height ∧ row.extinct = false)) =
        (known.filter fun block => decide (block ∈ chain.drop height)).map (rowIn chain) := by
      rw [h.rows, List.filter_map]
      congr 2
      funext block
      simp [mem_drop_iff hlinked, rowIn, BlockFormatter.row, Bool.and_comm]
    rw [hfilter]
    apply List.Perm.map
    apply (List.perm_ext_iff_of_nodup (hnodup.filter _) _).2
    · intro block
      simp only [List.mem_filter, decide_eq_true_eq, List.mem_reverse]
      constructor
      · exact fun hmem => hmem.2
      · exact fun hmem => ⟨hstored block ((mem_drop_iff hlinked _).1 hmem).1, hmem⟩
    · exact List.nodup_reverse.2 (hlinked.nodup.sublist (List.drop_sublist _ _))
  have hsorted : ((chain.drop height).reverse.map (rowIn chain)).Pairwise fun left right =>
      right.height ≤ left.height := by
    apply List.pairwise_map.2
    apply List.pairwise_reverse.2
    exact (hlinked.sorted.sublist (List.drop_sublist _ _)).imp fun hlt => hlt.le
  have horder : byHeightDesc (db.block.filter fun row =>
      decide (height ≤ row.height ∧ row.extinct = false)) =
      (chain.drop height).reverse.map (rowIn chain) := by
    apply List.Perm.eq_of_pairwise _ (List.pairwise_insertionSort _ _) hsorted
      ((List.perm_insertionSort _ _).trans hselected)
    intro left right hleft hright hle hge
    replace hleft := hselected.mem_iff.1 ((List.mem_insertionSort _).1 hleft)
    obtain ⟨leftBlock, hleftMem, rfl⟩ := List.mem_map.1 hleft
    obtain ⟨rightBlock, hrightMem, rfl⟩ := List.mem_map.1 hright
    rw [List.mem_reverse] at hleftMem hrightMem
    rw [eq_of_height hlinked ((mem_drop_iff hlinked _).1 hleftMem).1
      ((mem_drop_iff hlinked _).1 hrightMem).1 (le_antisymm hge hle)]
  rw [horder, List.map_map, List.map_reverse]
  rfl

/-- Reverting: events for the orphaned blocks, the highest first, then their rows. -/
theorem Shows.revert (h : Shows known chain db) (hnodup : known.Nodup)
    (hlinked : Extends [] chain) (hstored : ∀ block ∈ chain, block ∈ known) (height : ℕ) :
    Shows known (chain.take height) ((db.insertRevertEvents height).markExtinct height) := by
  have hlog : Replays (Links known) ((hashIds (chain.drop height)).reverse.map fun name =>
      ⟨true, name⟩) (hashIds chain) (hashIds (chain.take height)) := by
    have happend : hashIds chain =
        hashIds (chain.take height) ++ hashIds (chain.drop height) := by
      rw [hashIds, hashIds, hashIds, ← List.map_append, List.take_append_drop]
    rw [happend]
    exact replays_reverts _ _
  have hlogged := h.logged.insertEvents hlog
  rw [← h.revert_names hnodup hlinked hstored] at hlogged
  refine ⟨?_, hlogged.congr rfl le_rfl⟩
  have hblock : ((db.insertRevertEvents height).markExtinct height).block =
      db.block.map fun row =>
        if height ≤ row.height then { row with extinct := true } else row := rfl
  rw [hblock, h.rows, List.map_map]
  apply List.map_congr_left
  intro block _
  by_cases hheight : height ≤ block.height
  · have hnot : block ∉ chain.take height := fun hmem =>
      absurd ((mem_take_iff hlinked height).1 hmem).2 (not_lt.2 hheight)
    simp [rowIn, BlockFormatter.row, hheight, hnot]
  · have hiff : block ∈ chain.take height ↔ block ∈ chain :=
      (mem_take_iff hlinked height).trans (and_iff_left (not_le.1 hheight))
    simp [rowIn, BlockFormatter.row, hheight, hiff]

/-- A known block at the tip is revived: one row changes, one event is added. -/
theorem Shows.revive (h : Shows known chain db)
    (hdistinct : (known.map BlockData.hashId).Nodup) {block : BlockData} (hmem : block ∈ known)
    (hextends : Extends (idents chain) [block]) :
    Shows known (chain ++ [block])
      (((db.unmarkExtinct block.hashId).clearCurrentHeight block.height).insertEvents false
        [block.hashId]) := by
  have hlinks := @links_of_extends known chain [block] (by simpa using hmem)
    hextends [] block.hashId [] rfl
  have hlog : Replays (Links known) ([block.hashId].map fun name => ⟨false, name⟩)
      (hashIds chain) (hashIds (chain ++ [block])) := by
    simpa [Replays, hashIds] using hlinks
  have hlogged : Logged known (hashIds chain)
      ((db.unmarkExtinct block.hashId).clearCurrentHeight block.height) :=
    h.logged.congr rfl le_rfl
  refine ⟨?_, hlogged.insertEvents hlog⟩
  have hblock : (((db.unmarkExtinct block.hashId).clearCurrentHeight block.height).insertEvents
      false [block.hashId]).block = db.block.map fun row =>
        if row.hashId = block.hashId then { row with extinct := false } else row := rfl
  rw [hblock, h.rows, List.map_map]
  apply List.map_congr_left
  intro other hother
  by_cases hhash : other.hashId = block.hashId
  · obtain rfl := List.inj_on_of_nodup_map hdistinct hother hmem hhash
    simp [rowIn, BlockFormatter.row, BlockData.hashId]
  · have hne : other ≠ block := fun heq => hhash (congrArg _ heq)
    have hrow : (rowIn chain other).hashId ≠ block.hashId := hhash
    simp only [Function.comp_apply, if_neg hrow]
    simp [rowIn, hne]

/-! ## New blocks -/

/-- The rows of distinct blocks on one chain violate no key of `block`. -/
theorem keyed_rows (hdistinct : (known.map BlockData.hashId).Nodup)
    (hlinked : Extends [] chain) :
    KeyedTable.Keyed blockClash (known.map (rowIn chain)) := by
  apply List.pairwise_map.2
  apply (List.pairwise_map.1 hdistinct).imp
  intro old new hne
  have hheight : new.height = old.height → new ∈ chain → old ∉ chain := fun heq hnew hold =>
    hne (congrArg _ (eq_of_height hlinked hold hnew heq.symm))
  simp only [blockClash, rowIn_hashId, rowIn_height, rowIn_extinct, decide_eq_false_iff_not,
    not_or, not_and]
  exact ⟨fun heq => hne heq.symm, hheight⟩

theorem rows_append {blocks : List BlockData}
    (hdistinct : ((known ++ blocks).map BlockData.hashId).Nodup) :
    known.map (rowIn chain) ++ blocks.map BlockFormatter.row =
      (known ++ blocks).map (rowIn (chain ++ blocks)) := by
  rw [List.map_append]
  congr 1
  · apply List.map_congr_left
    intro block hmem
    have hnot : block ∉ blocks := fun hin => by
      have hdisjoint := (List.nodup_append.1 hdistinct.of_map).2.2
      exact hdisjoint block hmem block hin rfl
    simp [rowIn, hnot]
  · apply List.map_congr_left
    intro block hmem
    simp [rowIn, BlockFormatter.row, hmem]

/-- A batch of unknown blocks at the tip, written by any formatter. -/
theorem Shows.append {blocks : List BlockData} (h : Shows known chain db)
    (hdistinct : ((known ++ blocks).map BlockData.hashId).Nodup)
    (hlinked : Extends [] chain) (hextends : Extends (idents chain) blocks) {mode : Mode}
    {network : Network} {inputsUtxoMap : UtxoDetailsMap} {after : Db}
    (hexecuted : Executed mode (StoredRows.rowsOf network inputsUtxoMap blocks) db after) :
    Shows (known ++ blocks) (chain ++ blocks) after := by
  have hall : Extends [] (chain ++ blocks) := extends_append.2 ⟨hlinked, hextends⟩
  have hrows : KeyedTable.insertRows blockClash (skips mode) db.block
      (blocks.map BlockFormatter.row) =
        some ((known ++ blocks).map (rowIn (chain ++ blocks))) := by
    rw [h.rows, KeyedTable.insertRows_of_keyed, rows_append hdistinct]
    rw [rows_append hdistinct]
    exact keyed_rows hdistinct hall
  refine ⟨?_, ?_⟩
  · have hblock := hexecuted.block
    rw [StoredRows.rowsOf, StoredRows.rowsBy, hrows] at hblock
    exact (Option.some.inj hblock).symm
  · have hlinks := @links_of_extends (known ++ blocks) chain blocks (by simp_all) hextends
    have hlog : Replays (Links (known ++ blocks))
        ((hashIds blocks).map fun name => ⟨false, name⟩) (hashIds chain)
        (hashIds (chain ++ blocks)) := by
      have happend : hashIds (chain ++ blocks) = hashIds chain ++ hashIds blocks :=
        List.map_append
      rw [happend]
      exact replays_pushes (hashIds blocks) hlinks
    have hlogged := (h.logged.mono fun block hmem => List.mem_append_left blocks hmem).insertEvents
      hlog
    exact hlogged.congr hexecuted.event hexecuted.eventIdSeq.ge

end Shown

end BitcoinIndexer.Representation
