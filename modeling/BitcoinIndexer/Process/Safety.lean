import BitcoinIndexer.Chain.EventLog
import BitcoinIndexer.Process.Refinement

/-!
# What every run of the process keeps

The node may answer each question differently as long as it serves blocks of one set, any
thread may be slow, any statement may fail and the process may be started anew at any
moment.
-/

namespace BitcoinIndexer.Process

open BitcoinIndexer.Types
open BitcoinIndexer.Tables
open BitcoinIndexer.CancelingLog
open BitcoinIndexer.ReferenceChain
open BitcoinIndexer.Representation
open BitcoinIndexer.Worker
open BitcoinIndexer.Store
open BitcoinIndexer.Pipeline
open BitcoinIndexer.Node
open BitcoinIndexer.ChainState
open BitcoinIndexer.Grounding
open BitcoinIndexer.Following
open BitcoinIndexer.Opening
open BitcoinIndexer.Schedules
open BitcoinIndexer.Guarantees
open BitcoinIndexer.Interleaving

variable {S : Setting} {c₀ : StoreConfig} {found : List BlockHash} {p : Indexer}

/-! ## A run -/

/-- A node that serves one chain. -/
def serving (chain : List BlockData) : Client where
  getBlockCount := .ok (chain.length - 1)
  getBlockchainInfo := .ok "main"
  getBlockHash := fun height =>
    match chain[height]? with
    | some block => .ok block.id
    | none => .error .outOfRange
  getById := fun hash =>
    match chain.find? (·.id = hash) with
    | some block => .ok block.data
    | none => .error .other

theorem serving_honest {given : Set BlockData} {chain : List BlockData}
    (hgiven : ∀ block ∈ chain, block ∈ given)
    (hheights : chain.map (·.height) = List.range chain.length)
    (hids : Set.InjOn BlockData.id given) : Honest given .bitcoin (serving chain) where
  chain := by
    intro found hfound
    exact (Option.some.inj hfound).symm
  hashes := by
    intro height id hanswer
    cases hget : chain[height]? with
    | none => simp [serving, hget] at hanswer
    | some block =>
        obtain rfl : block.id = id := by simpa [serving, hget] using hanswer
        obtain ⟨hlt, -⟩ := List.getElem?_eq_some_iff.1 hget
        have hheight : (chain.map (·.height))[height]? = some height := by
          rw [hheights, List.getElem?_range hlt]
        rw [List.getElem?_map, hget] at hheight
        exact ⟨block, hgiven block (List.mem_of_getElem? hget), Option.some.inj hheight, rfl⟩
  blocks := by
    intro block hblock data hanswer
    cases hfind : chain.find? (·.id = block.id) with
    | none => simp [serving, hfind] at hanswer
    | some other =>
        obtain rfl : other.data = data := by simpa [serving, hfind] using hanswer
        have hid : other.id = block.id := by simpa using List.find?_some hfind
        rw [hids (hgiven other (List.mem_of_find?_eq_some hfind)) hblock hid]

/-- Every thread takes a step. -/
def turn (client : Client) : List Event :=
  [.main false client, .prefetch 0 client, .pipeline (.writer none), .pipeline (.queryFmt false),
    .pipeline (.utxo false)]

/-- A new process, and turns that are enough for what it has to do. -/
def working (chain : List BlockData) (turns : ℕ) : List Event :=
  .start 1 (serving chain) :: (List.replicate turns (turn (serving chain))).flatten

theorem rounds_answer {holds : Client → Prop} {round : List Event}
    (h : ∀ event ∈ round, event.answers holds) (turns : ℕ) :
    ∀ event ∈ (List.replicate turns round).flatten, event.answers holds := by
  intro event hmem
  obtain ⟨_, hround, hmem⟩ := List.mem_flatten.1 hmem
  rw [List.eq_of_mem_replicate hround] at hmem
  exact h event hmem

theorem turn_answers {holds : Client → Prop} {client : Client} (h : holds client) :
    ∀ event ∈ turn client, event.answers holds := by
  simp [turn, Event.answers, h]

theorem working_answers {given : Set BlockData} {chain : List BlockData}
    (h : Honest given .bitcoin (serving chain)) (turns : ℕ) :
    ∀ event ∈ working chain turns, event.answers (Honest given .bitcoin) := by
  intro event hmem
  obtain rfl | hmem := List.mem_cons.1 hmem
  · exact h
  · exact rounds_answer (turn_answers h) turns event hmem

theorem turns_go {client : Client} {turns : ℕ} {event : Event}
    (hmem : event ∈ (List.replicate turns (turn client)).flatten) : event.starts = false := by
  obtain ⟨round, hround, hmem⟩ := List.mem_flatten.1 hmem
  rw [List.eq_of_mem_replicate hround] at hmem
  simp only [turn, List.mem_cons, List.not_mem_nil, or_false] at hmem
  obtain rfl | rfl | rfl | rfl | rfl := hmem <;> rfl

/-- Two chains that part after the first block, of the blocks of `flipped`. -/
def firstChain : List BlockData := [blockAt 0 1 0, blockAt 1 2 1]

def secondChain : List BlockData := [blockAt 0 1 0, blockAt 1 3 1, blockAt 2 4 3]

theorem flipped_honest {chain : List BlockData} (hchain : chain = firstChain ∨ chain = secondChain) :
    Honest {block | block ∈ flipped} .bitcoin (serving chain) := by
  have hids : ∀ left ∈ flipped, ∀ right ∈ flipped, left.id = right.id → left = right := by decide
  have hall : ∀ chain ∈ [firstChain, secondChain], (∀ block ∈ chain, block ∈ flipped) ∧
      chain.map (·.height) = List.range chain.length := by decide
  obtain ⟨hgiven, hheights⟩ := hall chain (by simpa using hchain)
  exact serving_honest hgiven hheights fun left hleft right hright => hids left hleft right hright

/-- The first process stores one chain, the second one finds the other at the node. -/
@[irreducible]
def replacing : List Event := working firstChain 60 ++ working secondChain 60

theorem replacing_answers :
    ∀ event ∈ replacing, event.answers (Honest {block | block ∈ flipped} .bitcoin) := by
  intro event hmem
  rw [replacing] at hmem
  obtain hfirst | hsecond := List.mem_append.1 hmem
  · exact working_answers (flipped_honest (.inl rfl)) 60 event hfirst
  · exact working_answers (flipped_honest (.inr rfl)) 60 event hsecond

theorem firstChain_stored :
    (Indexer.initial.runFrom (working firstChain 60)).shared.db.chain = idents firstChain := by
  decide +kernel

/-! ## Assertions -/

/-- A halted program ends as the store's calls may end. -/
theorem InStage.excused (h : InStage S found p) {reason : Halt}
    (hhalted : p.remaining = .halt reason) : Excused S p.shared reason := by
  unfold InStage at h
  unfold Indexer.remaining at hhalted
  cases hstage : p.stage with
  | down =>
      simp only [hstage, Prog.halt.injEq] at hhalted
      exact hhalted ▸ .stopped
  | opening prog =>
      simp only [hstage] at h hhalted
      subst hhalted
      exact h.2
  | asking height prog =>
      simp only [hstage] at h hhalted
      cases prog with
      | halt other =>
          obtain rfl : other = reason := by simpa [Prog.forget] using hhalted
          exact h.2
      | _ => simp [Prog.forget] at hhalted
  | inserting prefetcher prog =>
      simp only [hstage] at h hhalted
      subst hhalted
      exact h.2
  | _ => simp [hstage] at hhalted

/-- No assertion of the store fails, nor does the process miss a hash it asks for: where a
thread of the store's panics, it is in the formatter or next to a dead worker. -/
theorem indexer_asserts_hold (given : Set BlockData)
    (injective : Set.InjOn BlockData.hashId given) (network : Network) (events : List Event)
    (hanswers : ∀ event ∈ events, event.answers (Honest given network)) :
    let p := Indexer.initial.runFrom events
    p.stage ≠ .failed .hashMissing ∧
      ∀ reason, p.remaining = .halt (.panicked reason) → reason ∉ ownAssertions ∧
        (reason = .sendFailed ∨ reason = .workerDied → ¬ healthy p.shared) := by
  intro p
  obtain ⟨found, hrefined⟩ := refined_run (inStage_initial (unrestricted given injective network))
    (fun _ _ => trivial) hanswers
  refine ⟨fun hstage => ?_, fun reason hhalted => ?_⟩
  · have hin := hrefined.inStage
    rw [InStage, hstage] at hin
    cases hin.2.1
  · exact Excused.not_own (hrefined.inStage.excused hhalted)

theorem replacing_asserts_hold :
    (Indexer.initial.runFrom replacing).shared.db.chain = idents secondChain ∧
      (Indexer.initial.runFrom replacing).stage ≠ .failed .hashMissing := by
  have hchain : (Indexer.initial.runFrom replacing).shared.db.chain = idents secondChain := by
    decide +kernel
  exact ⟨hchain, (indexer_asserts_hold _ flipped_injective .bitcoin replacing replacing_answers).1⟩

/-! ## The store behind the process -/

/-- A run and what the process does next. -/
theorem refined_twice {given : Set BlockData} (injective : Set.InjOn BlockData.hashId given)
    {network : Network} {events more : List Event}
    (hanswers : ∀ event ∈ events ++ more, event.answers (Honest given network)) :
    let S := unrestricted given injective network
    let before := Indexer.initial.runFrom events
    ∃ found later, Refined S Store.initial found before ∧
      Refined S before.config later (Indexer.initial.runFrom (events ++ more)) := by
  intro S before
  obtain ⟨found, hbefore⟩ := refined_run (inStage_initial S) (fun _ _ => trivial)
    fun event hmem => hanswers event (List.mem_append_left more hmem)
  obtain ⟨later, hafter⟩ := refined_run hbefore.inStage (fun _ _ => trivial)
    fun event hmem => hanswers event (List.mem_append_right events hmem)
  have hsame : (Indexer.initial.runFrom events).runFrom more =
      Indexer.initial.runFrom (events ++ more) := List.foldl_append.symm
  exact ⟨found, later, hbefore, hsame ▸ hafter⟩

/-- Events are added at the end of the log only. -/
theorem events_prefix {later : List BlockHash} {after : Indexer}
    (h : Refined S Store.initial found p) (hafter : Refined S p.config later after) :
    p.shared.db.event <+: after.shared.db.event := by
  obtain ⟨labels, more, hfollows, hlabels, hmore⟩ := h.reached.chained hafter.reached
  have hgrown := EventLog.events_grow S labels more hfollows
  rw [System.run_append, hlabels, hmore] at hgrown
  exact hgrown

/-- A run of the process is, for its store, a run on blocks in the prefetcher's order; what
the process does next prolongs that run. -/
theorem indexer_refines_store (given : Set BlockData)
    (injective : Set.InjOn BlockData.hashId given) (network : Network) (events more : List Event)
    (hanswers : ∀ event ∈ events ++ more, event.answers (Honest given network)) :
    let S := unrestricted given injective network
    let before := Indexer.initial.runFrom events
    ∃ labels moreLabels, (prefetched S).follows system (labels ++ moreLabels) Store.initial ∧
      system.run labels Store.initial = before.config ∧
      system.run moreLabels before.config = (before.runFrom more).config := by
  intro S before
  obtain ⟨_, _, hbefore, hafter⟩ := refined_twice injective hanswers
  have hsame : Indexer.initial.runFrom (events ++ more) = before.runFrom more := List.foldl_append
  rw [hsame] at hafter
  exact hbefore.reached.chained hafter.reached

theorem replacing_refines_store :
    ∃ labels, (prefetched (unrestricted {block | block ∈ flipped} flipped_injective
      .bitcoin)).follows system labels Store.initial ∧
        (system.run labels Store.initial).shared.db.chain = idents secondChain := by
  have hanswers := replacing_answers
  rw [replacing] at hanswers
  obtain ⟨labels, moreLabels, hfollows, hlabels, hmore⟩ := indexer_refines_store _
    flipped_injective .bitcoin (working firstChain 60) (working secondChain 60) hanswers
  refine ⟨labels ++ moreLabels, hfollows, ?_⟩
  rw [System.run_append, hlabels, hmore]
  decide +kernel

/-- Whatever happens, the database shows one whole chain, no later one a shorter chain, and
the event log replays to it. -/
theorem indexer_database_whole (given : Set BlockData)
    (injective : Set.InjOn BlockData.hashId given) (network : Network) (events more : List Event)
    (hanswers : ∀ event ∈ events ++ more, event.answers (Honest given network)) :
    let before := (Indexer.initial.runFrom events).shared.db
    let after := (Indexer.initial.runFrom (events ++ more)).shared.db
    Whole before ∧ Whole after ∧
      before.readDbChainCurrentBlockCount ≤ after.readDbChainCurrentBlockCount ∧
      Replays (Stacks after) ((inIdOrder after.event).map entryOf) []
        ((inHeightOrder (standing after)).map (·.hashId)) := by
  intro before after
  obtain ⟨_, _, hbefore, hafter⟩ := refined_twice injective hanswers
  obtain ⟨t, hsettled⟩ := hbefore.inStage.kept.settled
  obtain ⟨t', hsettled'⟩ := hafter.inStage.kept.settled
  obtain ⟨labels, -, hrun⟩ := hafter.reached
  refine ⟨Settled.whole hsettled, Settled.whole hsettled', ?_, ?_⟩
  · have hgrows := highest_run labels (Indexer.initial.runFrom events).config
    rw [hrun] at hgrows
    rw [hsettled.committed.readDbChainCurrentBlockCount,
      hsettled'.committed.readDbChainCurrentBlockCount, ← hsettled.highest, ← hsettled'.highest]
    exact hgrows
  · have hshows := hsettled'.committed.shows
    have hfinal : (inHeightOrder (standing after)).map (·.hashId) = hashIds t'.chain := by
      rw [inHeightOrder_standing hsettled', List.map_map]
      rfl
    rw [inIdOrder_eq hshows.logged, hfinal]
    exact hshows.logged.log.mono fun _ _ hlinks => stacks_of_links hshows hlinks

theorem replacing_whole :
    (Indexer.initial.runFrom (working firstChain 60)).shared.db.chain = idents firstChain ∧
      Whole (Indexer.initial.runFrom replacing).shared.db := by
  have hanswers := replacing_answers
  rw [replacing] at hanswers
  have hwhole := indexer_database_whole _ flipped_injective .bitcoin (working firstChain 60)
    (working secondChain 60) hanswers
  rw [replacing]
  exact ⟨firstChain_stored, hwhole.2.1⟩

/-! ## Between two blocks -/

/-- The line of the store is no shorter than what the caller has been given. -/
theorem Idling.wholeLine {yielded : List (RpcBlockWithPrevId BlockHash Block)} {db : IndexerStore}
    {w : World} (h : Idling S found yielded db w) :
    Held found yielded (wholeLine db w) ∧ w.fed.length ≤ (wholeLine db w).length := by
  obtain ⟨line, htip | ⟨base, pending, hreorg⟩, hheld⟩ := h
  · rw [AtTip.wholeLine_eq htip]
    exact ⟨hheld, htip.fed_initial.length_le⟩
  · obtain ⟨hinv, t, hgrounded⟩ := hreorg.at_view
    have hflight : flightBlocks w = [] := by
      simp [flightBlocks, flight, (hinv.settled hreorg.stopped).1]
    have hline : Guarantees.wholeLine db w = line := by
      rw [Guarantees.wholeLine, hflight, hreorg.batch, hgrounded.committed.chain_eq,
        hgrounded.chain_eq hinv hreorg.stopped]
      simp
    have hlength : w.fed.length ≤ base + pending.length := by
      rw [hreorg.fed_eq, List.length_append, length_idents]
      exact Nat.add_le_add_right (List.length_take_le _ _) _
    rw [hline]
    exact ⟨hheld, hlength.trans hreorg.below⟩

/-- From the successful start of a process on, whenever it waits for a block: what the
prefetcher has yielded, put on the chain the process found up to the block it started at,
is a prefix of what the store has accepted or, in a reorg, the stored chain below the
pending blocks followed by them.  What the store has accepted is the chain found or was
such a chain after one of the blocks. -/
theorem store_keeps_up (given : Set BlockData) (injective : Set.InjOn BlockData.hashId given)
    (network : Network) (before after : List Event) (threadNum height : ℕ) (client : Client)
    (hcount : client.getBlockCount = .ok height) (hnetwork : client.network = some network)
    (hanswers : ∀ event ∈ before ++ after, event.answers (Honest given network))
    (hgoes : ∀ event ∈ after, event.starts = false) :
    let found := (Indexer.initial.runFrom before).shared.db.chain
    let p := Indexer.initial.runFrom (before ++ .start threadNum client :: after)
    ∀ prefetcher, p.stage = .fetching prefetcher →
      let chain := consumed (startChain found) prefetcher.yielded
      (p.db.isInReorg = false → chain <+: wholeLine p.db p.shared ∧
        (wholeLine p.db p.shared).length = p.db.chainBlockCount) ∧
      (p.db.isInReorg = true → ∃ base,
        p.db.pendingReorg.keys = List.range' base p.db.pendingReorg.len ∧
        chain = p.shared.db.chain.take base ++ idents p.db.pendingReorg.values ∧
        base + p.db.pendingReorg.len ≤ p.shared.db.chain.length ∧
        p.shared.db.chain.length = p.db.chainBlockCount ∧ p.db.batch = [] ∧
        flightBlocks p.shared = []) ∧
      Held found prefetcher.yielded (wholeLine p.db p.shared) := by
  intro found p prefetcher hstage chain
  let S := unrestricted given injective network
  obtain ⟨_, hbefore⟩ := refined_run (inStage_initial S) (fun _ _ => trivial)
    fun event hmem => hanswers event (List.mem_append_left after hmem)
  have hstarted := hbefore.started (S := S) threadNum hcount hnetwork
  have hafter := hstarted.runFrom hgoes (fun _ _ => trivial)
    fun event hmem => hanswers event (List.mem_append_right before hmem)
  have hsame : p = ((Indexer.initial.runFrom before).start threadNum client).runFrom after := by
    simp only [p, Indexer.runFrom, List.foldl_append, List.foldl_cons]
    rfl
  rw [← hsame] at hafter
  have hin := hafter.inStage
  rw [InStage, hstage] at hin
  have hfed : p.shared.fed = chain := hin.2.fed_eq
  rw [← hfed]
  obtain ⟨haccepted, hpending⟩ := followed hin.1.idle
  exact ⟨haccepted, hpending, hin.1.wholeLine.1⟩

theorem replacing_keeps_up :
    ∃ prefetcher, (Indexer.initial.runFrom replacing).stage = .fetching prefetcher ∧
      prefetcher.yielded.map (·.block.height) = [1, 2] ∧
      consumed (startChain (idents firstChain)) prefetcher.yielded <+:
        wholeLine (Indexer.initial.runFrom replacing).db
          (Indexer.initial.runFrom replacing).shared := by
  have hwaits : (Indexer.initial.runFrom replacing).stage.waits = true := by decide +kernel
  have hyields : ((Indexer.initial.runFrom replacing).stage.prefetcher.map
      fun prefetcher => prefetcher.yielded.map (·.block.height)) = some [1, 2] := by
    decide +kernel
  have htip : (Indexer.initial.runFrom replacing).db.isInReorg = false := by decide +kernel
  have hsplit : replacing = working firstChain 60 ++ .start 1 (serving secondChain) ::
      (List.replicate 60 (turn (serving secondChain))).flatten := by
    rw [replacing, working, working]
  have hkeeps := store_keeps_up {block | block ∈ flipped} flipped_injective .bitcoin
    (working firstChain 60) (List.replicate 60 (turn (serving secondChain))).flatten 1 2
    (serving secondChain) rfl rfl (fun event hmem => replacing_answers event ?_)
    (fun event hmem => turns_go hmem)
  case refine_1 =>
    rw [hsplit]
    exact List.mem_append.2 ((List.mem_append.1 hmem).imp_right (List.mem_cons_of_mem _))
  rw [firstChain_stored, ← hsplit] at hkeeps
  cases hstage : (Indexer.initial.runFrom replacing).stage with
  | fetching prefetcher =>
      rw [hstage] at hyields
      exact ⟨prefetcher, rfl, Option.some.inj hyields, ((hkeeps prefetcher hstage).1 htip).1⟩
  | _ => rw [hstage] at hwaits; cases hwaits

end BitcoinIndexer.Process
