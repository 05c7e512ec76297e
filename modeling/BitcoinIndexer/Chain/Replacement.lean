import BitcoinIndexer.Chain.Following

/-!
# What a completed reorg replaces

The pending blocks below the first different height are on the chain already; the
others continue the chain cut there.  Of these the ones that are known come first,
because the known blocks are closed under predecessors, and the last one is not
known, being higher than anything stored.
-/

namespace BitcoinIndexer.Replacement

open BitcoinIndexer.Types
open BitcoinIndexer.Tables
open BitcoinIndexer.ReferenceChain
open BitcoinIndexer.Worker
open BitcoinIndexer.Store
open BitcoinIndexer.ChainState
open BitcoinIndexer.Grounding
open BitcoinIndexer.Following

variable {S : Setting} {t : BlockTree} {w : World} {line : List BlockHash}

theorem hashAtHeight_eq (h : Settled S t w) (height : BlockHeight) :
    hashAtHeight w.db height = (idents t.chain)[height]? :=
  h.committed.shows.hashAtHeight t.nodup_known t.linked t.stored height

theorem isIndexed_iff (h : Settled S t w) {block : BlockData} (hgiven : block ∈ S.given) :
    isIndexed w.db block = true ↔ block ∈ t.known := by
  constructor
  · intro hindexed
    by_contra hout
    have hunknown : block.hashId ∉ t.known.map BlockData.hashId := by
      intro hin
      obtain ⟨old, hold, hid⟩ := List.mem_map.1 hin
      exact hout (S.injective (h.committed.given old hold) hgiven hid ▸ hold)
    simp [isIndexed, h.committed.shows.extinct_unknown hunknown] at hindexed
  · intro hknown
    simp [isIndexed, h.committed.shows.extinct_known t.distinct hknown]

/-! ## The first different height -/

/-- Blocks that are on the line already only prolong what is kept of it. -/
theorem take_of_same {base : ℕ} {blocks : List BlockData} (hbase : base ≤ line.length)
    (hextends : Extends (line.take base) blocks)
    (hsame : ∀ block ∈ blocks, (line)[block.height]? = some block.id) :
    line.take base ++ idents blocks = line.take (base + blocks.length) ∧
      base + blocks.length ≤ line.length := by
  induction blocks generalizing base with
  | nil => simpa using hbase
  | cons block blocks ih =>
      have hheight : block.height = base := by
        have hlen : block.height = (line.take base).length := hextends.1.1
        rw [hlen, List.length_take, Nat.min_eq_left hbase]
      have hget := hsame block (by simp)
      rw [hheight] at hget
      obtain ⟨hlt, hid⟩ := List.getElem?_eq_some_iff.1 hget
      have htake : line.take (base + 1) = line.take base ++ [block.id] := by
        rw [← hid, List.take_append_getElem hlt]
      have hrest : Extends (line.take (base + 1)) blocks := by
        rw [htake]
        exact hextends.2
      obtain ⟨heq, hle⟩ := ih hlt hrest fun later hmem => hsame later (by simp [hmem])
      have hcount : base + (block :: blocks).length = base + 1 + blocks.length := by
        rw [List.length_cons]
        omega
      rw [hcount, ← heq, htake]
      exact ⟨by simp, hle⟩

/-- The height where the pending blocks leave the chain, and what lies on either side
of it. -/
theorem exists_split {base : ℕ} {pending : List BlockData} (h : Settled S t w)
    (hline : idents t.chain = line) (hbase : base ≤ line.length)
    (hextends : Extends (line.take base) pending)
    (htop : base + pending.length = line.length + 1) :
    ∃ same later, pending = same ++ later ∧
      (firstDifferent w.db (byHeight pending)).getD line.length = base + same.length ∧
      base + same.length ≤ line.length ∧
      line.take base ++ idents same = line.take (base + same.length) := by
  have hsame : ∀ block : BlockData, Link.height block < line.length →
      (hashAtHeight w.db block.height).any (· ≠ block.id) = false →
      (line)[block.height]? = some block.id := by
    intro block hlt hany
    have hget : (line)[block.height]? = some (line.get ⟨block.height, hlt⟩) :=
      List.getElem?_eq_getElem hlt
    rw [hashAtHeight_eq h, hline, hget] at hany
    rw [hget]
    simpa using hany
  cases hfind : (byHeight pending).find? fun entry =>
      (hashAtHeight w.db entry.1).any (· ≠ entry.2.id) with
  | none =>
      -- nothing differs: only the last block is new
      have hnonempty : pending ≠ [] := by
        intro hnil
        rw [hnil, List.length_nil] at htop
        omega
      have hsplit := List.dropLast_append_getLast hnonempty
      have hall : ∀ block ∈ pending.dropLast, (line)[block.height]? = some block.id := by
        intro block hmem
        have hin : block ∈ pending := List.dropLast_subset _ hmem
        have hnone := List.find?_eq_none.1 hfind (block.height, block)
          (List.mem_map_of_mem hin)
        have hbounds := (hextends.take (pending.length - 1)).height_bounds
          (List.dropLast_eq_take ▸ hmem)
        simp only [List.length_take, Nat.min_eq_left hbase] at hbounds
        exact hsame block (by omega) (by simpa using hnone)
      obtain ⟨htake, hle⟩ := take_of_same hbase
        (List.dropLast_eq_take ▸ hextends.take (pending.length - 1)) hall
      have hcount : line.length = base + pending.dropLast.length := by
        rw [List.length_dropLast]
        omega
      refine ⟨pending.dropLast, [pending.getLast hnonempty], hsplit.symm, ?_, hle, htake⟩
      rw [firstDifferent, hfind, Option.map_none, Option.getD_none]
      exact hcount
  | some entry =>
      obtain ⟨hdiffers, before, after, hentries, hbefore⟩ := List.find?_eq_some_iff_append.1 hfind
      obtain ⟨same, later, rfl, rfl, hlater⟩ := List.map_eq_append_iff.1 hentries
      obtain ⟨block, rest, rfl, rfl, -⟩ := List.map_eq_cons_iff.1 hlater
      have hheight : block.height = base + same.length := by
        have hget : (same ++ block :: rest)[same.length]? = some block := by simp
        have heq : block.height = (line.take base).length + same.length := hextends.height_eq hget
        rwa [List.length_take, Nat.min_eq_left hbase] at heq
      have hlt : block.height < line.length := by
        by_contra hge
        rw [hashAtHeight_eq h, hline, List.getElem?_eq_none (not_lt.1 hge)] at hdiffers
        simp at hdiffers
      have hall : ∀ old ∈ same, (line)[old.height]? = some old.id := by
        intro old hmem
        have hbounds := (extends_append.1 hextends).1.height_bounds hmem
        simp only [List.length_take, Nat.min_eq_left hbase] at hbounds
        have hbelow : Link.height block < line.length := hlt
        have hat : Link.height block = base + same.length := hheight
        apply hsame old (by omega)
        simpa using hbefore (old.height, old) (List.mem_map_of_mem hmem)
      obtain ⟨htake, hle⟩ := take_of_same hbase (extends_append.1 hextends).1 hall
      refine ⟨same, block :: rest, rfl, ?_, hle, htake⟩
      rw [firstDifferent, hfind, Option.map_some, Option.getD_some, hheight]

/-! ## Known and unknown blocks -/

/-- The blocks of a linked list that are known come first. -/
theorem exists_known (h : Settled S t w) (blocks : List BlockData) :
    ∀ {chain : List BlockHash}, (∀ block ∈ blocks, block ∈ S.given) → Extends chain blocks →
      ∃ revived new, blocks = revived ++ new ∧ (∀ block ∈ revived, block ∈ t.known) ∧
        ∀ block ∈ new, block ∉ t.known := by
  induction blocks with
  | nil => exact fun _ _ => ⟨[], [], rfl, by simp, by simp⟩
  | cons block blocks ih =>
      intro chain hgiven hextends
      obtain ⟨revived, new, rfl, hrevived, hnew⟩ :=
        ih (fun block hmem => hgiven block (by simp [hmem])) hextends.2
      by_cases hblock : block ∈ t.known
      · exact ⟨block :: revived, new, rfl, by simpa [hblock] using hrevived, hnew⟩
      · -- an unknown block has no known successor
        cases revived with
        | nil => exact ⟨[], block :: new, rfl, by simp, by simpa [hblock] using hnew⟩
        | cons child revived =>
            have hchild : child ∈ t.known := hrevived child (by simp)
            obtain ⟨⟨hheight, hprev⟩, -⟩ := hextends.2
            have hpos : 0 < child.height := by
              have hlen : child.height = (chain ++ [block.id]).length := hheight
              rw [hlen]
              simp
            obtain ⟨parent, hparent, hid⟩ := t.rooted child hchild hpos
            have hlink : some block.id = some child.data.header.prevBlockhash := by
              have hget := hprev hpos
              rw [hheight] at hget
              simpa using hget
            have hsame : parent = block := by
              apply S.injective (h.committed.given parent hparent) (hgiven block (by simp))
              rw [BlockData.hashId, BlockData.hashId, hid, Option.some.inj hlink]
            exact absurd (hsame ▸ hparent) hblock

/-- Everything a completed reorg does: the blocks it passes over, those it revives and
those it inserts, with the tree it leads to. -/
structure Replaces (S : Setting) (t t' : BlockTree) (line : List BlockHash) (base : ℕ)
    (same revived new pending : List BlockData) : Prop where
  split : pending = same ++ (revived ++ new)
  below : base + same.length ≤ line.length
  kept : line.take base ++ idents same = line.take (base + same.length)
  revived_known : ∀ block ∈ revived, block ∈ t.known
  new_given : ∀ block ∈ new, block ∈ S.given
  new_unknown : ∀ block ∈ new, block ∉ t.known
  new_nonempty : new ≠ []
  extends_kept : Extends (idents (t.chain.take (base + same.length))) (revived ++ new)
  known_eq : t'.known = t.known ++ new
  chain_eq : t'.chain = t.chain.take (base + same.length) ++ (revived ++ new)
  longer : t.chain.length ≤ t'.chain.length

theorem exists_replaces {base : ℕ} {pending : List BlockData} (h : Settled S t w)
    (hline : idents t.chain = line) (hbase : base ≤ line.length)
    (hgiven : ∀ block ∈ pending, block ∈ S.given) (hextends : Extends (line.take base) pending)
    (htop : base + pending.length = line.length + 1) :
    ∃ t' same revived new, Replaces S t t' line base same revived new pending ∧
      (firstDifferent w.db (byHeight pending)).getD line.length = base + same.length := by
  obtain ⟨same, later, rfl, hheight, hle, hkept⟩ := exists_split h hline hbase hextends htop
  have hlater : Extends (line.take (base + same.length)) later := by
    rw [← hkept]
    exact (extends_append.1 hextends).2
  obtain ⟨revived, new, rfl, hrevived, hnew⟩ :=
    exists_known h later (fun block hmem => hgiven block (by simp [hmem])) hlater
  have htake : idents (t.chain.take (base + same.length)) = line.take (base + same.length) := by
    rw [← hline, idents, idents, List.map_take]
  have hlen : (line.take (base + same.length)).length = base + same.length := by
    rw [List.length_take, Nat.min_eq_left hle]
  rw [List.length_append] at htop
  have hnonempty : new ≠ [] := by
    -- the last block lies above everything stored
    rintro rfl
    rw [List.append_nil] at hlater htop hgiven
    have hpos : revived.length - 1 < revived.length := by omega
    have hlast := hlater.height_eq (List.getElem?_eq_getElem hpos)
    have hbelow : Link.height revived[revived.length - 1] < t.chain.length :=
      t.bounded _ (hrevived _ (List.getElem_mem hpos))
    have hcount : t.chain.length = line.length := by rw [← hline, length_idents]
    omega
  have hnewGiven : ∀ block ∈ new, block ∈ S.given := fun block hmem =>
    hgiven block (by simp [hmem])
  have hextends' : Extends (idents (t.chain.take (base + same.length))) (revived ++ new) :=
    htake ▸ hlater
  have hlonger : t.chain.length ≤
      (t.chain.take (base + same.length) ++ (revived ++ new)).length := by
    have hcount : t.chain.length = line.length := by rw [← hline, length_idents]
    rw [List.length_append, List.length_take, hcount, Nat.min_eq_left hle]
    omega
  obtain ⟨t', hknown, hchain⟩ := BlockTree.exists_replaced S.injective h.committed.given hnewGiven
    hnew hrevived hextends' hlonger
  exact ⟨t', same, revived, new,
    { split := rfl
      below := hle
      kept := hkept
      revived_known := hrevived
      new_given := hnewGiven
      new_unknown := hnew
      new_nonempty := hnonempty
      extends_kept := hextends'
      known_eq := hknown
      chain_eq := hchain
      longer := by
        rw [hchain]
        exact hlonger }, hheight⟩

/-- From the first different height on the map holds the revived and the new blocks. -/
theorem filter_byHeight {base : ℕ} {same later : List BlockData} (hbase : base ≤ line.length)
    (hextends : Extends (line.take base) (same ++ later)) :
    (byHeight (same ++ later)).filter (fun entry => base + same.length ≤ entry.1) =
      byHeight later := by
  have hlen : (line.take base).length = base := by rw [List.length_take, Nat.min_eq_left hbase]
  have hfilter := hextends.filter_ge (base + same.length)
  rw [hlen, Nat.add_sub_cancel_left, List.drop_left] at hfilter
  rw [byHeight, List.filter_map]
  exact congrArg byHeight hfilter

/-- The plan of a reorg from the state before it. -/
theorem planned_eq {t' : BlockTree} {base : ℕ} {same revived new pending : List BlockData}
    {store : IndexerStore} {block : BlockData} (h : Settled S t w)
    (hreplaces : Replaces S t t' line base same revived new pending)
    (hbase : base ≤ line.length) (hextends : Extends (line.take base) pending)
    (hentries : ((store.pendingReorg.below block.height).insert block.height block).entries =
      byHeight pending)
    (hheight : (firstDifferent w.db (byHeight pending)).getD line.length = base + same.length)
    (hcount : store.chainBlockCount = line.length) :
    planned store w.db block = .reorg store.mode (base + same.length) revived new := by
  have hsplit := hreplaces.split
  subst hsplit
  have hvalues : ((((store.pendingReorg.below block.height).insert block.height block).splitOff
      (base + same.length)).values) = revived ++ new := by
    rw [OrderedMap.BTreeMap.values, OrderedMap.BTreeMap.entries_splitOff, hentries,
      filter_byHeight hbase hextends]
    simp [byHeight, Function.comp_def]
  have hrevived : ∀ block ∈ revived, isIndexed w.db block = true := fun block hmem =>
    (isIndexed_iff h (h.committed.given block (hreplaces.revived_known block hmem))).2
      (hreplaces.revived_known block hmem)
  have hnew : ∀ block ∈ new, isIndexed w.db block = false := fun block hmem =>
    Bool.eq_false_iff.2 fun hindexed => hreplaces.new_unknown block hmem
      ((isIndexed_iff h (hreplaces.new_given block hmem)).1 hindexed)
  rw [planned, hentries, hcount, hheight, hvalues, List.filter_append, List.filter_append,
    List.filter_eq_self.2 hrevived, List.filter_eq_nil_iff.2 (by simpa using hnew),
    List.filter_eq_nil_iff.2 (by simpa using hrevived),
    List.filter_eq_self.2 (by simpa using hnew), List.append_nil, List.nil_append]

end BitcoinIndexer.Replacement
