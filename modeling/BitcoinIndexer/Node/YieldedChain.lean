import BitcoinIndexer.Node.Transition

/-!
# Every yielded block links

The consumer of the iterator keeps its chain by truncation.  Below the height waited
for, the recorded hashes are those of that chain; the entries above it, which a reset
leaves behind, are not looked at before they are overwritten.
-/

namespace BitcoinIndexer.Node

open BitcoinIndexer.ReferenceChain
open BitcoinIndexer.OrderedMap

variable {ι δ : Type}

/-- `chain` ends in the block the prefetcher is started at; whatever ids it has below
that block, the prefetcher never looks there. -/
def Starts (start : Option (WithHeightAndId ι Unit)) (chain : List ι) : Prop :=
  match start with
  | none => chain = []
  | some last => chain.length = last.height + 1 ∧ chain[last.height]? = some last.id

def startHeight : Option (WithHeightAndId ι Unit) → ℕ
  | none => 0
  | some last => last.height

/-- The height after the last block the consumer has got. -/
def heightAfter (start : Option (WithHeightAndId ι Unit)) (blocks : List (RpcBlockWithPrevId ι δ)) :
    ℕ :=
  match blocks.getLast? with
  | some last => last.block.height + 1
  | none => match start with
    | some last => last.height + 1
    | none => 0

/-- What `item` shows when it is yielded after the blocks `before`. -/
structure LinksTo (start : Option (WithHeightAndId ι Unit)) (chain : List ι)
    (before : List (RpcBlockWithPrevId ι δ)) (item : RpcBlockWithPrevId ι δ) : Prop where
  next : item.block.height ≤ heightAfter start before
  aboveStart : 0 < startHeight start → startHeight start < item.block.height
  linked : 0 < item.block.height →
    (consumed chain before)[item.block.height - 1]? = some item.prevBlockId

/-- Each of `blocks` links to what the consumer had when it got it. -/
def Linked (start : Option (WithHeightAndId ι Unit)) (chain : List ι)
    (blocks : List (RpcBlockWithPrevId ι δ)) : Prop :=
  ∀ index item, blocks[index]? = some item → LinksTo start chain (blocks.take index) item

structure Inv (start : Option (WithHeightAndId ι Unit)) (chain : List ι) (s : State ι δ) : Prop where
  recorded : ∀ height id, height < s.prefetcher.curHeight →
    s.prefetcher.prevHashes.get height = some id →
      (consumed chain s.yielded)[height]? = some id
  within : s.prefetcher.curHeight ≤ (consumed chain s.yielded).length
  keys : ∀ height id, s.prefetcher.prevHashes.get height = some id → startHeight start ≤ height
  curHeight : startHeight start ≤ s.prefetcher.curHeight
  reorg : s.phase = .finish .reorg ∨ s.phase = .drain .reorg →
    startHeight start < s.prefetcher.curHeight
  starts : Starts start chain
  links : Linked start chain s.yielded
  buffered : ∀ height item, s.prefetcher.outOfOrderItems.get height = some item →
    item.block.height = height

section Frames

theorem Offered.frame {s : State ι δ} {item : RpcBlockWithPrevId ι δ} {p : Prefetcher ι δ}
    (h : Offered s item p) :
    p.curHeight = s.prefetcher.curHeight ∧ p.prevHashes = s.prefetcher.prevHashes := by
  cases h <;> exact ⟨rfl, rfl⟩

theorem Offered.outOfOrderItems {s : State ι δ} {item : RpcBlockWithPrevId ι δ}
    {p : Prefetcher ι δ} (h : Offered s item p) {height : ℕ} {other : RpcBlockWithPrevId ι δ}
    (hget : p.outOfOrderItems.get height = some other) :
    s.prefetcher.outOfOrderItems.get height = some other := by
  cases h with
  | received => exact hget
  | buffered =>
      rw [BTreeMap.get_eq_some_iff, BTreeMap.mem_entries_remove] at hget
      exact BTreeMap.get_eq_some_iff.2 hget.1

/-- A worker leaves alone what belongs to the iterator. -/
theorem Prefetcher.Worked.frame {p q : Prefetcher ι δ} {rpc : Rpc ι δ} {w w' : Worker ι δ}
    (hworked : Prefetcher.Worked p rpc w w' q) :
    ∃ nextHeight rx, q = { p with nextHeight := nextHeight, rx := rx } := by
  cases hworked <;> exact ⟨_, _, rfl⟩

theorem get_recorded {p : Prefetcher ι δ} {item : RpcBlockWithPrevId ι δ} {height : ℕ} {id : ι}
    (hget : (p.recorded item).get height = some id) :
    (height = item.block.height ∧ id = item.block.id) ∨
      (height ≠ item.block.height ∧ p.prevHashes.get height = some id) := by
  have hinserted : (p.prevHashes.insert item.block.height item.block.id).get height = some id := by
    unfold Prefetcher.recorded at hget
    split at hget
    · rw [BTreeMap.get_eq_some_iff, BTreeMap.mem_entries_remove] at hget
      exact BTreeMap.get_eq_some_iff.2 hget.1
    · exact hget
  by_cases heq : height = item.block.height
  · rw [heq, BTreeMap.get_insert_self] at hinserted
    exact .inl ⟨heq, (Option.some.inj hinserted).symm⟩
  · rw [BTreeMap.get_insert_of_ne _ _ heq] at hinserted
    exact .inr ⟨heq, hinserted⟩

end Frames

variable {start : Option (WithHeightAndId ι Unit)} {chain : List ι} {s : State ι δ}

/-! ## Linked blocks -/

@[simp]
theorem heightAfter_append (blocks : List (RpcBlockWithPrevId ι δ))
    (item : RpcBlockWithPrevId ι δ) :
    heightAfter start (blocks ++ [item]) = item.block.height + 1 := by
  simp [heightAfter]

theorem linked_append_singleton {blocks : List (RpcBlockWithPrevId ι δ)}
    {item : RpcBlockWithPrevId ι δ} :
    Linked start chain (blocks ++ [item]) ↔
      Linked start chain blocks ∧ LinksTo start chain blocks item := by
  constructor
  · intro h
    refine ⟨fun index other hget => ?_, ?_⟩
    · obtain ⟨hlt, -⟩ := List.getElem?_eq_some_iff.1 hget
      have hother := h index other (by rwa [List.getElem?_append_left hlt])
      rwa [List.take_append_of_le_length hlt.le] at hother
    · simpa using h blocks.length item List.getElem?_concat_length
  · intro ⟨hblocks, hitem⟩ index other hget
    by_cases hlt : index < blocks.length
    · rw [List.getElem?_append_left hlt] at hget
      rw [List.take_append_of_le_length hlt.le]
      exact hblocks index other hget
    · have hindex : index = blocks.length := by
        obtain ⟨hlast, -⟩ := List.getElem?_eq_some_iff.1 hget
        simp only [List.length_append, List.length_singleton] at hlast
        omega
      rw [hindex, List.getElem?_concat_length, Option.some.injEq] at hget
      rw [hindex, List.take_left, ← hget]
      exact hitem

theorem Linked.length_consumed {blocks : List (RpcBlockWithPrevId ι δ)}
    (hstart : Starts start chain) (h : Linked start chain blocks) :
    (consumed chain blocks).length = heightAfter start blocks := by
  induction blocks using List.reverseRecOn with
  | nil =>
      cases start with
      | none =>
          have hempty : chain = [] := hstart
          simp [hempty, heightAfter]
      | some last => exact hstart.1
  | append_singleton blocks item ih =>
      obtain ⟨hblocks, hitem⟩ := linked_append_singleton.1 h
      have hfeeds : Feeds (consumed chain blocks) item :=
        ⟨ih hblocks ▸ hitem.next, hitem.linked⟩
      rw [consumed_append_singleton, length_feed hfeeds, heightAfter_append, link_height]

theorem LinksTo.feeds {blocks : List (RpcBlockWithPrevId ι δ)} {item : RpcBlockWithPrevId ι δ}
    (hstart : Starts start chain) (hblocks : Linked start chain blocks)
    (h : LinksTo start chain blocks item) : Feeds (consumed chain blocks) item :=
  ⟨hblocks.length_consumed hstart ▸ h.next, h.linked⟩

/-- The start block stays on the chain. -/
theorem Linked.start_kept {blocks : List (RpcBlockWithPrevId ι δ)} {last : WithHeightAndId ι Unit}
    (hstart : Starts (some last) chain) (hpos : 0 < last.height)
    (h : Linked (some last) chain blocks) :
    (consumed chain blocks)[last.height]? = some last.id := by
  induction blocks using List.reverseRecOn with
  | nil => exact hstart.2
  | append_singleton blocks item ih =>
      obtain ⟨hblocks, hitem⟩ := linked_append_singleton.1 h
      have hbelow : last.height < item.block.height := hitem.aboveStart hpos
      rw [consumed_append_singleton,
        getElem?_feed_of_lt hbelow (hitem.feeds hstart hblocks).1]
      exact ih hblocks

/-- Every id above the start block is that of a block linked to the id below it. -/
theorem Linked.traced {blockOf : ι → Option (RpcBlockWithPrevId ι δ)}
    {blocks : List (RpcBlockWithPrevId ι δ)} (hstart : Starts start chain)
    (h : Linked start chain blocks)
    (hblockOf : ∀ item ∈ blocks, blockOf item.block.id = some item) :
    Traced blockOf (startHeight start) (consumed chain blocks) := by
  induction blocks using List.reverseRecOn with
  | nil =>
      apply traced_of_length_le
      rw [h.length_consumed hstart]
      cases start <;> simp [heightAfter, startHeight]
  | append_singleton blocks item ih =>
      obtain ⟨hblocks, hitem⟩ := linked_append_singleton.1 h
      rw [consumed_append_singleton]
      apply (ih hblocks fun other hmem => hblockOf other (List.mem_append_left _ hmem)).feed
        (hitem.feeds hstart hblocks)
      exact hblockOf item (by simp)

theorem Linked.ancestorLine_eq {blockOf : ι → Option (RpcBlockWithPrevId ι δ)}
    {blocks : List (RpcBlockWithPrevId ι δ)} {last : RpcBlockWithPrevId ι δ}
    (hstart : Starts start chain) (h : Linked start chain (blocks ++ [last]))
    (hblockOf : ∀ item ∈ blocks ++ [last], blockOf item.block.id = some item) :
    (consumed chain (blocks ++ [last])).drop (startHeight start) =
      ancestorLine blockOf (last.block.height - startHeight start) last.block.id := by
  obtain ⟨hblocks, hlast⟩ := linked_append_singleton.1 h
  have hfeeds : Feeds (consumed chain blocks) last := hlast.feeds hstart hblocks
  have habove : startHeight start ≤ last.block.height := by
    by_cases hpos : 0 < startHeight start
    · exact (hlast.aboveStart hpos).le
    · omega
  have htip : startHeight start + (last.block.height - startHeight start) = last.block.height := by
    omega
  have hlength := h.length_consumed hstart
  rw [heightAfter_append] at hlength
  have hget : (consumed chain (blocks ++ [last]))[startHeight start +
      (last.block.height - startHeight start)]? = some last.block.id := by
    rw [htip, consumed_append_singleton]
    exact getElem?_feed_self hfeeds.1
  have hline := (h.traced hstart hblockOf).ancestorLine_eq hget
  rwa [htip, List.take_of_length_le hlength.le] at hline

/-! ## The invariant -/

/-- A step that leaves the yielded blocks, the recorded hashes and the height alone. -/
theorem Inv.quiet (h : Inv start chain s) {after : State ι δ}
    (hyielded : after.yielded = s.yielded)
    (hprev : after.prefetcher.prevHashes = s.prefetcher.prevHashes)
    (hcur : after.prefetcher.curHeight = s.prefetcher.curHeight)
    (hreorg : after.phase = .finish .reorg ∨ after.phase = .drain .reorg →
      startHeight start < s.prefetcher.curHeight)
    (hbuffered : ∀ height item, after.prefetcher.outOfOrderItems.get height = some item →
      item.block.height = height) : Inv start chain after where
  recorded := by
    rw [hprev, hcur, hyielded]
    exact h.recorded
  within := by
    rw [hcur, hyielded]
    exact h.within
  keys := by
    rw [hprev]
    exact h.keys
  curHeight := by
    rw [hcur]
    exact h.curHeight
  reorg := by
    rw [hcur]
    exact hreorg
  starts := h.starts
  links := by
    rw [hyielded]
    exact h.links
  buffered := hbuffered

theorem Inv.panicked (h : Inv start chain s) {p : Prefetcher ι δ} {panic : Panic ι}
    (hcur : p.curHeight = s.prefetcher.curHeight)
    (hprev : p.prevHashes = s.prefetcher.prevHashes)
    (hbuffered : ∀ height item, p.outOfOrderItems.get height = some item →
      item.block.height = height) :
    Inv start chain { s with prefetcher := p, phase := .panicked panic } :=
  h.quiet rfl hprev hcur (by simp) hbuffered

/-- New workers: nothing is buffered, and the height is one the chain still covers. -/
theorem Inv.restarted (h : Inv start chain s) {threadNum height : ℕ}
    (hle : height ≤ s.prefetcher.curHeight) (hstart : startHeight start ≤ height) :
    Inv start chain
      { s with prefetcher := s.prefetcher.restarted threadNum height, phase := .lookUp } where
  recorded := fun below id hlt hget => h.recorded below id (hlt.trans_le hle) hget
  within := hle.trans h.within
  keys := h.keys
  curHeight := hstart
  reorg := by simp
  starts := h.starts
  links := h.links
  buffered := by simp [Prefetcher.restarted, BTreeMap.get, BTreeMap.empty]

/-- The block a yield puts on the chain. -/
theorem linksTo_of_track [DecidableEq ι] (h : Inv start chain s)
    {item : RpcBlockWithPrevId ι δ} (hheight : item.block.height = s.prefetcher.curHeight)
    (hprev : 0 < s.prefetcher.curHeight →
      s.prefetcher.prevHashes.get (s.prefetcher.curHeight - 1) = some item.prevBlockId) :
    LinksTo start chain s.yielded item where
  next := by
    rw [← h.links.length_consumed h.starts, hheight]
    exact h.within
  aboveStart := by
    intro hpos
    have hcur := h.curHeight
    have hkey := h.keys _ _ (hprev (by omega))
    omega
  linked := by
    intro hpos
    rw [hheight] at hpos ⊢
    exact h.recorded _ _ (by omega) (hprev hpos)

theorem Inv.yield [DecidableEq ι] (h : Inv start chain s) {item : RpcBlockWithPrevId ι δ}
    {p q : Prefetcher ι δ} (hoffered : Offered s item p)
    (htrack : p.trackReorgs item = .ok (false, q)) :
    Inv start chain ⟨{ q with curHeight := q.curHeight + 1 }, .idle, s.yielded ++ [item]⟩ := by
  obtain ⟨hcur, hprevHashes⟩ := hoffered.frame
  obtain ⟨hheight, ⟨-, hprev, rfl, -⟩ | ⟨hfalse, -⟩⟩ := Prefetcher.trackReorgs_eq_ok htrack
  case inr => cases hfalse
  rw [hcur, hprevHashes] at hprev
  rw [hcur] at hheight
  have hlinks : LinksTo start chain s.yielded item := linksTo_of_track h hheight hprev
  have hfeeds : Feeds (consumed chain s.yielded) item := hlinks.feeds h.starts h.links
  have hlength : (consumed chain (s.yielded ++ [item])).length = item.block.height + 1 := by
    rw [consumed_append_singleton, length_feed hfeeds, link_height]
  constructor
  case recorded =>
    intro height id hlt hget
    rw [consumed_append_singleton]
    obtain ⟨rfl, rfl⟩ | ⟨hne, hold⟩ := get_recorded hget
    · exact getElem?_feed_self hfeeds.1
    · have hbelow : height < item.block.height := by
        simp only [hcur] at hlt
        omega
      rw [getElem?_feed_of_lt hbelow hfeeds.1]
      rw [hprevHashes] at hold
      exact h.recorded height id (hheight ▸ hbelow) hold
  case within =>
    rw [hlength, hheight, ← hcur]
  case keys =>
    intro height id hget
    obtain ⟨rfl, -⟩ | ⟨-, hold⟩ := get_recorded hget
    · rw [hheight]
      exact h.curHeight
    · rw [hprevHashes] at hold
      exact h.keys height id hold
  case curHeight =>
    have hlow := h.curHeight
    simp only [hcur]
    omega
  case reorg => simp
  case starts => exact h.starts
  case links => exact linked_append_singleton.2 ⟨h.links, hlinks⟩
  case buffered =>
    intro height other hget
    exact h.buffered height other (hoffered.outOfOrderItems hget)

theorem Inv.step [DecidableEq ι] (h : Inv start chain s) (event : Event ι δ) :
    Inv start chain (s.step event) := by
  have htransition := transition_step s event
  generalize s.step event = after at htransition
  cases htransition with
  | stay => exact h
  | worked index rpc w w' p hget hstep =>
      obtain ⟨nextHeight, rx, rfl⟩ := (Prefetcher.worked_of_workerStep hstep).frame
      exact h.quiet rfl rfl rfl h.reorg h.buffered
  | yielded item p q hoffered htrack => exact h.yield hoffered htrack
  | reorgFound item p hoffered htrack =>
      obtain ⟨hcur, hprevHashes⟩ := hoffered.frame
      obtain ⟨-, ⟨hfalse, -⟩ | ⟨-, -, hpos, stored, hstored, -⟩⟩ :=
        Prefetcher.trackReorgs_eq_ok htrack
      case inl => cases hfalse
      rw [hcur, hprevHashes] at hstored
      rw [hcur] at hpos
      refine h.quiet rfl hprevHashes hcur (fun _ => ?_) fun height other hget =>
        h.buffered height other (hoffered.outOfOrderItems hget)
      have hkey := h.keys _ _ hstored
      omega
  | trackPanicked item p panic hoffered htrack =>
      obtain ⟨hcur, hprevHashes⟩ := hoffered.frame
      exact h.panicked hcur hprevHashes fun height other hget =>
        h.buffered height other (hoffered.outOfOrderItems hget)
  | putAside channel item items hphase hrx hitems hheight =>
      refine h.quiet rfl rfl rfl h.reorg ?_
      intro height other hget
      by_cases heq : height = item.block.height
      · rw [heq, BTreeMap.get_insert_self, Option.some.injEq] at hget
        rw [heq, hget]
      · rw [BTreeMap.get_insert_of_ne _ _ heq] at hget
        exact h.buffered height other hget
  | finished stop hphase =>
      refine h.quiet rfl rfl rfl (fun hdrain => ?_) h.buffered
      exact h.reorg (.inl (by simpa [hphase] using hdrain))
  | drained stop channel item items hphase hrx hitems =>
      exact h.quiet rfl rfl rfl h.reorg h.buffered
  | fastSyncRestart channel hphase hrx hitems hended => exact h.restarted le_rfl h.curHeight
  | reorgRestart channel hphase hrx hitems hended hpos =>
      have hlow := h.reorg (.inr hphase)
      exact h.restarted (by omega) (by omega)
  | fastSyncEnded | asked | notBuffered =>
      exact h.quiet rfl rfl rfl (by simp) h.buffered
  | belowCurrent | disconnected | rxMissing | resetAtZero =>
      exact h.panicked rfl rfl h.buffered

theorem linked_nil : Linked start chain ([] : List (RpcBlockWithPrevId ι δ)) := by
  intro index item hget
  simp at hget

theorem inv_new (threadNum count : ℕ) (hstart : Starts start chain) :
    Inv start chain (State.new threadNum count start : State ι δ) := by
  cases start with
  | none =>
      constructor
      case starts => exact hstart
      case links => exact linked_nil
      all_goals
        simp [State.new, State.started, Prefetcher.startWorkers, BTreeMap.get, BTreeMap.empty,
          startHeight]
  | some last =>
      have hentry : ∀ height id, (BTreeMap.empty.insert last.height last.id).get height = some id →
          height = last.height ∧ id = last.id := by
        intro height id hsome
        rw [BTreeMap.get_eq_some_iff, BTreeMap.mem_entries_insert] at hsome
        simpa using hsome
      constructor
      case starts => exact hstart
      case links => exact linked_nil
      case recorded =>
        intro height id _ hsome
        obtain ⟨rfl, rfl⟩ := hentry height id hsome
        exact hstart.2
      case keys =>
        intro height id hsome
        exact (hentry height id hsome).1.ge
      case within => exact hstart.1.ge
      all_goals
        simp [State.new, State.started, Prefetcher.startWorkers, BTreeMap.get, BTreeMap.empty,
          startHeight]

theorem Inv.run [DecidableEq ι] (h : Inv start chain s) (events : List (Event ι δ)) :
    Inv start chain (s.run events) := by
  induction events generalizing s with
  | nil => exact h
  | cons event events ih => exact ih (h.step event)

/-- Whatever the node answers and however the threads interleave: each yielded block is
at most one above the last one, above the start block, and linked to the consumer's
chain, which keeps the start block.  When an id determines its block, that chain is the
line of ancestors of the last yielded block. -/
theorem yielded_blocks_link [DecidableEq ι] (threadNum count : ℕ)
    (start : Option (WithHeightAndId ι Unit)) (chain : List ι) (hstart : Starts start chain)
    (events : List (Event ι δ)) :
    let yielded := ((State.new threadNum count start).run events).yielded
    (∀ index item, yielded[index]? = some item →
      LinksTo start chain (yielded.take index) item) ∧
    (∀ last, start = some last → 0 < last.height →
      (consumed chain yielded)[last.height]? = some last.id) ∧
    ∀ blockOf : ι → Option (RpcBlockWithPrevId ι δ),
      (∀ item ∈ yielded, blockOf item.block.id = some item) →
      ∀ last, yielded.getLast? = some last →
        (consumed chain yielded).drop (startHeight start) =
          ancestorLine blockOf (last.block.height - startHeight start) last.block.id := by
  have hlinks := ((inv_new (δ := δ) threadNum count hstart).run events).links
  intro yielded
  refine ⟨hlinks, fun last hsome hpos => ?_, fun blockOf hblockOf last hlast => ?_⟩
  · subst hsome
    exact hlinks.start_kept hstart hpos
  · obtain ⟨before, hsnoc⟩ := List.getLast?_eq_some_iff.1 hlast
    change Linked start chain yielded at hlinks
    rw [hsnoc] at hlinks hblockOf ⊢
    exact hlinks.ancestorLine_eq hstart hblockOf

/-- A node that serves `blocks`. -/
def serve (blocks : List (RpcBlockWithPrevId ℕ Unit)) : Rpc ℕ Unit where
  getBlockCount := .ok (blocks.length - 1)
  getBlockIdByHeight := fun height =>
    .ok ((blocks.find? fun item => item.block.height = height).map fun item => item.block.id)
  getBlockById := fun id =>
    .ok ((blocks.find? fun item => item.block.id = id).map fun item =>
      (item.block.data, item.prevBlockId))

def blockAt (height id prev : ℕ) : RpcBlockWithPrevId ℕ Unit :=
  ⟨⟨height, id, ()⟩, prev⟩

/-- A worker takes one height from claim to release. -/
def fetchOne (rpc : Rpc ℕ Unit) : List (Event ℕ Unit) :=
  List.replicate 7 (.worker 0 rpc)

/-- Block 12 is abandoned for 22 while the block above it is fetched. -/
def abandoned : List (Event ℕ Unit) :=
  let old := serve [blockAt 2 12 11]
  let new := serve [blockAt 2 22 11, blockAt 3 23 22]
  [.next, .consumer] ++ fetchOne old ++ [.consumer, .next, .consumer] ++ fetchOne new ++
    [.consumer, .consumer, .worker 0 new, .worker 0 new, .worker 0 new, .consumer, .consumer] ++
    fetchOne new ++ [.consumer, .next, .consumer] ++ fetchOne new ++ [.consumer]

theorem abandoned_blocks_link :
    let yielded := ((State.new 1 0 (some ⟨1, 11, ()⟩)).run abandoned).yielded
    yielded = [blockAt 2 12 11, blockAt 2 22 11, blockAt 3 23 22] ∧
      ∀ index item, yielded[index]? = some item →
        LinksTo (some ⟨1, 11, ()⟩) [10, 11] (yielded.take index) item :=
  ⟨by decide +kernel,
    (yielded_blocks_link 1 0 (some ⟨1, 11, ()⟩) [10, 11] ⟨rfl, rfl⟩ abandoned).1⟩

end BitcoinIndexer.Node
