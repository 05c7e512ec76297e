import BitcoinIndexer.Chain.HashByHeight
import BitcoinIndexer.Node.Answers
import BitcoinIndexer.Node.Liveness
import BitcoinIndexer.Process.Indexer

/-!
# The process and its store

What the prefetcher yields is what the store assumes of its caller, across every restart:
a run of the process, seen from the store, is one of the runs on blocks in the
prefetcher's order.
-/

namespace BitcoinIndexer.Process

open BitcoinIndexer.Types
open BitcoinIndexer.Tables
open BitcoinIndexer.ReferenceChain
open BitcoinIndexer.Worker
open BitcoinIndexer.Store
open BitcoinIndexer.Pipeline
open BitcoinIndexer.Node
open BitcoinIndexer.ChainState
open BitcoinIndexer.Grounding
open BitcoinIndexer.Following
open BitcoinIndexer.Reorg
open BitcoinIndexer.Calls
open BitcoinIndexer.Opening
open BitcoinIndexer.Schedules
open BitcoinIndexer.HashByHeight
open BitcoinIndexer.Interleaving

/-! ## The answers of the node -/

/-- The node is on one network, and names and serves blocks of `given`. -/
structure Honest (given : Set BlockData) (network : Network) (client : Client) : Prop where
  chain : ∀ found, client.network = some found → found = network
  hashes : ∀ height id, client.getBlockHash height = .ok id →
    ∃ block ∈ given, block.height = height ∧ block.id = id
  blocks : ∀ block ∈ given, ∀ data, client.getById block.id = .ok data → data = block.data

/-- The node's answers at the event have the property. -/
def Event.answers (answered : Client → Prop) : Event → Prop
  | .start _ client | .main _ client | .prefetch _ client => answered client
  | .pipeline _ => True

theorem Event.answers_mono {answered more : Client → Prop}
    (himp : ∀ client, answered client → more client) {event : Event}
    (h : event.answers answered) : event.answers more := by
  cases event with
  | pipeline event => trivial
  | _ => exact himp _ h

/-- Whether the event is the start of a new process. -/
def Event.starts : Event → Bool
  | .start _ _ => true
  | _ => false

variable {S : Setting} {network : Network} {client : Client} {p : Indexer}

def Known (given : Set BlockData) (height : ℕ) (id : BlockHash) : Prop :=
  ∃ block ∈ given, block.height = height ∧ block.id = id

/-- A block of `given` with the id in its header. -/
def Given (given : Set BlockData) (item : RpcBlockWithPrevId BlockHash Block) : Prop :=
  blockData item.block ∈ given ∧ item.block.data.header.prevBlockhash = item.prevBlockId

theorem optional_eq_ok {α : Type} {answer : Except ClientError α} {value : α}
    (h : optional answer = .ok (some value)) : answer = .ok value := by
  cases answer with
  | ok other => exact congrArg Except.ok (Option.some.inj (Except.ok.inj h))
  | error error => cases error <;> cases h

theorem Honest.truthful {given : Set BlockData} (h : Honest given network client) :
    Truthful (Known given) (Given given) client.rpc where
  ids := fun height id hanswer => h.hashes height id (optional_eq_ok hanswer)
  blocks := by
    rintro height id data prevBlockId ⟨block, hblock, rfl, rfl⟩ hanswer
    cases hget : optional (client.getById block.id) with
    | error error => simp [Client.rpc, hget, Except.map] at hanswer
    | ok answer =>
        cases answer with
        | none => simp [Client.rpc, hget, Except.map] at hanswer
        | some found =>
            obtain rfl := h.blocks block hblock found (optional_eq_ok hget)
            obtain ⟨rfl, rfl⟩ : block.data = data ∧ block.data.header.prevBlockhash = prevBlockId := by
              simpa [Client.rpc, hget, Except.map] using hanswer
            exact ⟨hblock, rfl⟩

/-! ## What is true at each stage -/

/-- The prefetcher's consumer had `base` at its start and has `fed` now; it gets blocks of
`given` only. -/
structure Fed (S : Setting) (base : List BlockHash) (prefetcher : Node.State BlockHash Block)
    (fed : List BlockHash) : Prop where
  sourced : Sourced (Known S.given) (Given S.given) prefetcher
  inv : ∃ start, Inv start base prefetcher
  fed_eq : fed = consumed base prefetcher.yielded

/-- What the caller knows of the chain it has found: the blocks up to the one it starts the
prefetcher at. -/
def startChain (found : List BlockHash) : List BlockHash := found.take (resumed found.length)

/-- The store has been opened on the chain it has found. -/
def Opened (S : Setting) (found : List BlockHash) (db : IndexerStore) (w : World) : Prop :=
  w.fed = startChain found ∧ AtTip S found db w

/-- The answer is the last block the caller knows. -/
def Answered (S : Setting) (found : List BlockHash) (height : BlockHeight)
    (answer : Option BlockHash) (db : IndexerStore) (w : World) : Prop :=
  Opened S found db w ∧ (startChain found).length = height + 1 ∧
    ∃ id, answer = some id ∧ (startChain found)[height]? = some id

/-- The line of the store is the chain it has found, or what the caller had after one of the
blocks it has got since. -/
def Held (found : List BlockHash) (yielded : List (RpcBlockWithPrevId BlockHash Block))
    (line : List BlockHash) : Prop :=
  line = found ∨ ∃ earlier, earlier <+: yielded ∧ line = consumed (startChain found) earlier

/-- The store is between two calls, on such a line. -/
def Idling (S : Setting) (found : List BlockHash)
    (yielded : List (RpcBlockWithPrevId BlockHash Block)) (db : IndexerStore) (w : World) : Prop :=
  ∃ line, (AtTip S line db w ∨ Reorging S line db w) ∧ Held found yielded line

/-- `found` is the stored chain at the start of the running process. -/
def InStage (S : Setting) (found : List BlockHash) (p : Indexer) : Prop :=
  match p.stage with
  | .down => Kept S p.shared
  | .opening prog => SafeIn S (fun _ => Opened S found) prog p.db p.shared
  | .asking height prog => SafeIn S (Answered S found height) prog p.db p.shared
  | .starting start => Opened S found p.db p.shared ∧ Starts start (startChain found)
  | .fetching prefetcher =>
      Idling S found prefetcher.yielded p.db p.shared ∧
        Fed S (startChain found) prefetcher p.shared.fed
  | .inserting prefetcher prog =>
      SafeIn S (fun _ db w => Idling S found prefetcher.yielded db w ∧
        Fed S (startChain found) prefetcher w.fed) prog p.db p.shared
  | .failed fault =>
      Kept S p.shared ∧ fault = .headAboveNode ∧ p.nodeStartingChainheadHeight + 1 < found.length

/-- A configuration that the store reaches from `c₀` on blocks in the prefetcher's order. -/
def Reached (S : Setting) (c₀ c : StoreConfig) : Prop :=
  ∃ labels, (prefetched S).follows system labels c₀ ∧ system.run labels c₀ = c

/-- The process and the store it has, as the store sees it. -/
structure Refined (S : Setting) (c₀ : StoreConfig) (found : List BlockHash) (p : Indexer) :
    Prop where
  inStage : InStage S found p
  reached : Reached S c₀ p.config

variable {c₀ : StoreConfig} {base found : List BlockHash}

theorem Reached.next {c : StoreConfig} (h : Reached S c₀ c) (label : StoreLabel)
    (hadmits : (prefetched S).admits label c) : Reached S c₀ (system.next label c) := by
  obtain ⟨labels, hfollows, rfl⟩ := h
  refine ⟨labels ++ [label], ?_, ?_⟩
  · rw [Discipline.follows_append]
    exact ⟨hfollows, hadmits, trivial⟩
  · rw [System.run_append]
    rfl

/-- A run and one that goes on from where it ended. -/
theorem Reached.chained {c after : StoreConfig} (h : Reached S c₀ c) (hmore : Reached S c after) :
    ∃ labels more, (prefetched S).follows system (labels ++ more) c₀ ∧
      system.run labels c₀ = c ∧ system.run more c = after := by
  obtain ⟨labels, hfollows, rfl⟩ := h
  obtain ⟨more, hafter, hrun⟩ := hmore
  exact ⟨labels, more, (Discipline.follows_append system _ labels more c₀).2 ⟨hfollows, hafter⟩,
    rfl, hrun⟩

/-! ## Calls and accesses -/

section Programs

variable {α : Type} {Q : α → IndexerStore → World → Prop} {prog : StoreM α}

theorem AtTip.chain_nil {line : List BlockHash} {db : IndexerStore} {w : World}
    (h : AtTip S line db w) (hcount : db.getHeadHeight = none) : line = [] := by
  have hzero : db.chainBlockCount = 0 := by
    by_contra hne
    simp [IndexerStore.getHeadHeight, hne] at hcount
  exact List.length_eq_zero_iff.1 (h.count.symm.trans hzero)

theorem AtTip.head {line : List BlockHash} {db : IndexerStore} {w : World} {last : BlockHeight}
    (h : AtTip S line db w) (hhead : db.getHeadHeight = some last) : line.length = last + 1 := by
  by_cases hzero : db.chainBlockCount = 0
  · simp [IndexerStore.getHeadHeight, hzero] at hhead
  · obtain rfl : db.chainBlockCount - 1 = last := by
      simpa [IndexerStore.getHeadHeight, hzero] using hhead
    rw [← h.count, Nat.sub_add_cancel (Nat.pos_of_ne_zero hzero)]

/-- Asking for the block the prefetcher will start at. -/
theorem safe_ask {db : IndexerStore} {w : World} (h : Opened S found db w) {last : BlockHeight}
    (hhead : db.getHeadHeight = some last) :
    SafeIn S (Answered S found (last - 100)) (getHashByHeight (last - 100)) db w := by
  obtain ⟨hfed, htip⟩ := h
  have hlength := AtTip.head htip hhead
  have hbase : startChain found = found.take (last - 100 + 1) := by
    simp [startChain, resumed, hlength]
  have hlt : last - 100 < found.length := hlength ▸ Nat.lt_succ_of_le (Nat.sub_le _ _)
  apply Safe.mono _ (safe_getHashByHeight_tip htip (last - 100))
  rintro answer db w' ⟨htip, hsame, rfl⟩
  refine ⟨⟨hsame.trans hfed, htip⟩, ?_, found.get ⟨last - 100, hlt⟩, ?_, ?_⟩
  · rw [hbase, List.length_take, Nat.min_eq_left hlt]
  · exact List.getElem?_eq_getElem hlt
  · rw [hbase, List.getElem?_take_of_lt (Nat.lt_succ_self _)]
    exact List.getElem?_eq_getElem hlt

theorem safe_open {w : World} (hkept : Kept S w) (hnetwork : network = S.network)
    (height : BlockHeight) (db : IndexerStore) :
    SafeIn S (fun _ => Opened S w.db.chain) (Store.new height network) db
      (restart (resumed w.db.chain.length) w) := by
  obtain ⟨t, hsettled⟩ := hkept.settled
  have hfresh := fresh_restart hsettled (resumed w.db.chain.length)
  have hchain := hsettled.committed.chain_eq
  apply Safe.mono _ (safe_fed (safe_new hfresh hnetwork height) rfl)
  rintro _ db w' ⟨htip, hfed⟩
  exact ⟨hfed, hchain ▸ htip⟩

end Programs

theorem Opened.step {db : IndexerStore} {w : World} (h : Opened S found db w) {event : WorkerEvent}
    (hevent : (prefetched S).event event w) : Opened S found db (w.step event) :=
  ⟨(step_fed event).trans h.1, h.2.step hevent⟩

namespace Idling

variable {yielded : List (RpcBlockWithPrevId BlockHash Block)} {db : IndexerStore} {w : World}

theorem idle (h : Idling S found yielded db w) : Idle S db w := by
  obtain ⟨line, htip | hreorg, -⟩ := h
  · exact htip.idle
  · exact Reorging.idle hreorg

theorem step (h : Idling S found yielded db w) {event : WorkerEvent}
    (hevent : (prefetched S).event event w) : Idling S found yielded db (w.step event) := by
  obtain ⟨line, htip | ⟨base, pending, hreorg⟩, hheld⟩ := h
  · exact ⟨line, .inl (htip.step hevent), hheld⟩
  · rw [step_none hreorg.stopped]
    exact ⟨line, .inr ⟨base, pending, hreorg⟩, hheld⟩

/-- The line stays, or it is what the caller has then. -/
theorem insert {block : BlockData} {item : RpcBlockWithPrevId BlockHash Block}
    (h : Idling S found yielded db w) (hfeeds : Feeds w.fed block) (hgiven : block ∈ S.given)
    (hfree : ∀ db commit, S.admits db commit)
    (hfed : feed w.fed block = consumed (startChain found) (yielded ++ [item])) :
    SafeIn S (fun _ db w => Idling S found (yielded ++ [item]) db w) (Store.insert block) db
      { w with fed := feed w.fed block } := by
  obtain ⟨line, hline, hheld⟩ := h
  have hkept : Held found (yielded ++ [item]) line :=
    hheld.imp_right fun ⟨earlier, hinitial, heq⟩ =>
      ⟨earlier, hinitial.trans (List.prefix_append _ _), heq⟩
  have hnew : Held found (yielded ++ [item]) (feed w.fed block) :=
    .inr ⟨_, List.prefix_rfl, hfed⟩
  have hprolonged : ∀ db after, after.fed = feed w.fed block → Prolonged S line db after →
      Idling S found (yielded ++ [item]) db after :=
    fun db after hsame hprolonged => ⟨after.fed, .inl hprolonged.1, hsame ▸ hnew⟩
  obtain htip | ⟨base, pending, hreorg⟩ := hline
  · apply Safe.mono _ (safe_fed (safe_insert_tip htip hfeeds hgiven) rfl)
    rintro _ db after ⟨hprolonged' | htip' | hreorging, hsame⟩
    · exact hprolonged db after hsame hprolonged'
    · exact ⟨line, .inl htip', hkept⟩
    · exact ⟨line, .inr hreorging, hkept⟩
  · apply Safe.mono _ (safe_fed (safe_insert_reorg hreorg hfeeds hgiven fun _ => hfree _ _) rfl)
    rintro _ db after ⟨hprolonged' | hreorging, hsame⟩
    · exact hprolonged db after hsame hprolonged'
    · exact ⟨line, .inr hreorging, hkept⟩

end Idling

/-- What the store says to its caller stays true while the workers go on. -/
theorem InStage.step (h : InStage S found p) {event : WorkerEvent}
    (hevent : (prefetched S).event event p.shared) :
    InStage S found { p with shared := p.shared.step event } := by
  unfold InStage at h ⊢
  cases hstage : p.stage with
  | down =>
      simp only [hstage] at h ⊢
      exact h.step hevent
  | opening prog =>
      simp only [hstage] at h ⊢
      exact Safe.interfere (fun _ _ _ _ hevent h => h.step hevent) stable_ends p.db event p.shared
        hevent h
  | asking height prog =>
      simp only [hstage] at h ⊢
      apply Safe.interfere _ stable_ends p.db event p.shared hevent h
      exact fun answer db event w hevent hanswered => ⟨hanswered.1.step hevent, hanswered.2⟩
  | starting start =>
      simp only [hstage] at h ⊢
      exact ⟨h.1.step hevent, h.2⟩
  | fetching prefetcher =>
      simp only [hstage] at h ⊢
      exact ⟨h.1.step hevent, (step_fed event).symm ▸ h.2⟩
  | inserting prefetcher prog =>
      simp only [hstage] at h ⊢
      apply Safe.interfere _ stable_ends p.db event p.shared hevent h
      intro _ db event w hevent ⟨hidling, hfed⟩
      exact ⟨hidling.step hevent, (step_fed event).symm ▸ hfed⟩
  | failed fault =>
      simp only [hstage] at h ⊢
      exact ⟨h.1.step hevent, h.2⟩

/-- At every stage the committed state shows a tree. -/
theorem InStage.kept (h : InStage S found p) : Kept S p.shared := by
  have hends : ∀ reason db w, Ends S reason db w → Kept S w := fun _ _ _ h => h.1
  unfold InStage at h
  cases hstage : p.stage with
  | down => simpa only [hstage] using h
  | opening prog =>
      simp only [hstage] at h
      exact Safe.always (fun _ _ _ hopened => hopened.2.kept) hends h
  | asking height prog =>
      simp only [hstage] at h
      exact Safe.always (fun _ _ _ hanswered => hanswered.1.2.kept) hends h
  | starting start =>
      simp only [hstage] at h
      exact h.1.2.kept
  | fetching prefetcher =>
      simp only [hstage] at h
      exact h.1.idle.kept
  | inserting prefetcher prog =>
      simp only [hstage] at h
      exact Safe.always (fun _ _ _ hpost => hpost.1.idle.kept) hends h
  | failed fault =>
      simp only [hstage] at h
      exact h.1

/-! ## One step -/

/-- The blocks a step yields: none or one. -/
theorem exists_yielded_step (s : Node.State BlockHash Block) (event : Node.Event BlockHash Block) :
    (s.step event).yielded = s.yielded ∨ ∃ item, (s.step event).yielded = s.yielded ++ [item] := by
  have htransition := transition_step s event
  generalize s.step event = after at htransition
  cases htransition with
  | yielded item => exact .inr ⟨item, rfl⟩
  | _ => exact .inl rfl

theorem Fed.step {prefetcher : Node.State BlockHash Block} {fed : List BlockHash}
    (h : Fed S base prefetcher fed) (event : Node.Event BlockHash Block)
    (hanswers : event.answers (Truthful (Known S.given) (Given S.given)))
    (hsame : (prefetcher.step event).yielded = prefetcher.yielded) :
    Fed S base (prefetcher.step event) fed where
  sourced := h.sourced.step event hanswers
  inv := h.inv.imp fun _ hinv => hinv.step event
  fed_eq := by rw [hsame, h.fed_eq]

/-- A block just yielded continues what the consumer has. -/
theorem Fed.yield {before prefetcher : Node.State BlockHash Block} {fed : List BlockHash}
    {item : RpcBlockWithPrevId BlockHash Block} (h : Fed S base before fed)
    (event : Node.Event BlockHash Block)
    (hanswers : event.answers (Truthful (Known S.given) (Given S.given)))
    (hstep : before.step event = prefetcher) (hyield : prefetcher.yielded = before.yielded ++ [item]) :
    Feeds fed (blockData item.block) ∧ blockData item.block ∈ S.given ∧
      Fed S base prefetcher (feed fed (blockData item.block)) := by
  obtain ⟨hsourced, ⟨start, hinv⟩, rfl⟩ := h
  have hsourced' := hsourced.step event hanswers
  have hinv' := hinv.step event
  rw [hstep] at hsourced' hinv'
  obtain ⟨hgiven, hprev⟩ := hsourced'.yielded item (by simp [hyield])
  have hlinks := hinv'.links
  rw [hyield] at hlinks
  obtain ⟨hbefore, hitem⟩ := linked_append_singleton.1 hlinks
  have hfeeds : Feeds (consumed base before.yielded) item := hitem.feeds hinv.starts hbefore
  refine ⟨⟨hfeeds.1, fun hpos => ?_⟩, hgiven, hsourced', ⟨start, hinv'⟩, ?_⟩
  · exact (hfeeds.2 hpos).trans (congrArg some hprev.symm)
  · rw [hyield, consumed_append_singleton]
    rfl

namespace Refined

/-- A new process knows the beginning of the chain it finds. -/
theorem started (h : Refined S c₀ found p) (threadNum : ℕ) {height : ℕ}
    (hcount : client.getBlockCount = .ok height) (hnetwork : client.network = some S.network) :
    Refined S c₀ p.shared.db.chain (p.start threadNum client) := by
  simp only [Indexer.start, hcount, hnetwork]
  constructor
  · exact (safe_settle _ _ _).2 (safe_open h.inStage.kept rfl height p.db)
  · exact h.reached.next (.call (.start height S.network _)) rfl

theorem start (h : Refined S c₀ found p) (threadNum : ℕ) (hhonest : Honest S.given S.network client) :
    ∃ found, Refined S c₀ found (p.start threadNum client) := by
  cases hcount : client.getBlockCount with
  | error error =>
      simp only [Indexer.start, hcount]
      exact ⟨found, h⟩
  | ok height =>
      cases hnetwork : client.network with
      | none =>
          simp only [Indexer.start, hcount, hnetwork]
          exact ⟨found, h⟩
      | some network =>
          obtain rfl := hhonest.chain network hnetwork
          exact ⟨_, h.started threadNum hcount hnetwork⟩

theorem pipeline (h : Refined S c₀ found p) {event : WorkerEvent}
    (hevent : (prefetched S).event event p.shared) :
    Refined S c₀ found (p.step (.pipeline event)) where
  inStage := h.inStage.step hevent
  reached := h.reached.next (.other event) hevent

/-- A step of a worker of the prefetcher is none of the store. -/
theorem prefetch (h : Refined S c₀ found p) (index : ℕ)
    (hhonest : Honest S.given S.network client) :
    Refined S c₀ found (p.prefetchStep index client) := by
  obtain ⟨threadNum, height, db, w, stage⟩ := p
  have hstage := h.inStage
  have hreached := h.reached
  have hsame : ∀ prefetcher : Node.State BlockHash Block,
      (prefetcher.step (.worker index client.rpc)).yielded = prefetcher.yielded := by
    intro prefetcher
    have htransition := transition_step prefetcher (.worker index client.rpc)
    generalize prefetcher.step (.worker index client.rpc) = after at htransition
    cases htransition <;> rfl
  cases stage with
  | fetching prefetcher =>
      have hidling := hstage.1
      rw [← hsame prefetcher] at hidling
      exact ⟨⟨hidling, hstage.2.step _ hhonest.truthful (hsame prefetcher)⟩, hreached⟩
  | inserting prefetcher prog =>
      refine ⟨Safe.mono (fun _ db w hpost => ?_) hstage, hreached⟩
      rw [hsame prefetcher]
      exact ⟨hpost.1, hpost.2.step _ hhonest.truthful (hsame prefetcher)⟩
  | _ => exact h

/-- An access of the program the store runs. -/
theorem proceed {α : Type} {Q : α → IndexerStore → World → Prop} {prog : StoreM α}
    (stage : StoreM α → Stage) (hreached : Reached S c₀ ⟨p.db, p.shared, prog.forget⟩)
    (hsafe : SafeIn S Q prog p.db p.shared) (fails : Bool) :
    SafeIn S Q (system.proceed fails prog p.db p.shared).1 (p.proceed fails prog stage).db
        (p.proceed fails prog stage).shared ∧
      Reached S c₀ ⟨(p.proceed fails prog stage).db, (p.proceed fails prog stage).shared,
        (system.proceed fails prog p.db p.shared).1.forget⟩ := by
  refine ⟨hsafe.proceed (fun _ => trivial) fails, ?_⟩
  have hnext := hreached.next (.step fails) fun _ _ _ => trivial
  simp only [System.next, System.advance_forget] at hnext
  exact hnext

/-- The store is open: the process goes on from the stored chain head. -/
theorem run (hopened : Opened S found p.db p.shared)
    (hreached : Reached S c₀ ⟨p.db, p.shared, .pure ()⟩) : Refined S c₀ found p.run := by
  cases hhead : p.db.getHeadHeight with
  | none =>
      simp only [Indexer.run, hhead]
      obtain ⟨hfed, htip⟩ := hopened
      have hnil : startChain found = [] := by rw [AtTip.chain_nil htip hhead, startChain, List.take_nil]
      exact ⟨⟨⟨hfed, htip⟩, hnil⟩, hreached⟩
  | some last =>
      simp only [Indexer.run, hhead]
      split
      · refine ⟨(safe_settle _ _ _).2 (safe_ask hopened hhead), ?_⟩
        have hnext := hreached.next (.call (.getHashByHeight (last - 100))) rfl
        simp only [System.next, system, systemOf, body, Prog.bind_eq, Prog.pure_eq, enter] at hnext
        rw [← Prog.forget, Prog.settle_forget] at hnext
        exact hnext
      · rename_i hhigh
        have hlength := AtTip.head hopened.2 hhead
        exact ⟨⟨hopened.2.kept, rfl, by rw [hlength]; exact Nat.succ_lt_succ (not_le.1 hhigh)⟩, hreached⟩

theorem startFrom {height : BlockHeight} {answer : Option BlockHash}
    (hanswered : Answered S found height answer p.db p.shared)
    (hreached : Reached S c₀ ⟨p.db, p.shared, .pure ()⟩) :
    Refined S c₀ found (p.startFrom height answer) := by
  obtain ⟨hopened, hlength, id, rfl, hget⟩ := hanswered
  exact ⟨⟨hopened, hlength, hget⟩, hreached⟩

theorem startPrefetcher {start : Option (WithHeightAndId BlockHash Unit)}
    (hstage : p.stage = .starting start) (h : Refined S c₀ found p) :
    Refined S c₀ found (p.startPrefetcher start client) := by
  have hin := h.inStage
  have hreached := h.reached
  simp only [InStage, hstage] at hin
  simp only [Indexer.config, Indexer.remaining, hstage] at hreached
  simp only [Indexer.startPrefetcher]
  obtain ⟨⟨hfed, htip⟩, hstarts⟩ := hin
  cases client.rpc.getBlockCount with
  | error error => exact h
  | ok count =>
      refine ⟨⟨⟨found, .inl htip, .inl rfl⟩, ?_⟩, hreached⟩
      exact ⟨sourced_new p.threadNum count start, ⟨start, inv_new p.threadNum count hstarts⟩,
        by cases start <;> exact hfed⟩

/-- The thread's step in `next`: where a block is yielded, the store may be given it. -/
theorem fetch {prefetcher : Node.State BlockHash Block}
    (hidling : Idling S found prefetcher.yielded p.db p.shared)
    (hfed : Fed S (startChain found) prefetcher p.shared.fed) (hfree : ∀ db commit, S.admits db commit)
    (hreached : Reached S c₀ ⟨p.db, p.shared, .pure ()⟩) :
    Refined S c₀ found (p.fetch prefetcher) := by
  have hanswers : (if prefetcher.phase = .idle then Node.Event.next else
      .consumer : Node.Event BlockHash Block).answers (Truthful (Known S.given) (Given S.given)) := by
    split <;> trivial
  simp only [Indexer.fetch]
  generalize (if prefetcher.phase = .idle then Node.Event.next else
    .consumer : Node.Event BlockHash Block) = event at hanswers
  obtain hsame | ⟨item, hyield⟩ := exists_yielded_step prefetcher event
  · rw [hsame, List.getElem?_eq_none le_rfl]
    exact ⟨⟨hsame ▸ hidling, hfed.step event hanswers hsame⟩, hreached⟩
  · obtain ⟨hfeeds, hgiven, hfed'⟩ := hfed.yield event hanswers rfl hyield
    rw [hyield, List.getElem?_concat_length]
    constructor
    · apply (safe_settle _ _ _).2
      have hinsert := hidling.insert hfeeds hgiven hfree (hyield ▸ hfed'.fed_eq)
      apply Safe.mono _ (safe_fed hinsert rfl)
      rintro _ db w ⟨hidling, hsame⟩
      exact ⟨hyield ▸ hidling, hsame ▸ hfed'⟩
    · exact hreached.next (.call (.insert (blockData item.block)))
        ⟨rfl, hfeeds, hgiven, fun _ _ => hfree _ _⟩

theorem main (h : Refined S c₀ found p) (fails : Bool) (hfree : ∀ db commit, S.admits db commit) :
    Refined S c₀ found (p.mainStep fails client) := by
  have hin := h.inStage
  have hreached := h.reached
  unfold InStage at hin
  unfold Indexer.config Indexer.remaining at hreached
  unfold Indexer.mainStep
  cases hstage : p.stage with
  | down => exact h
  | failed fault => exact h
  | starting start => exact h.startPrefetcher hstage
  | fetching prefetcher =>
      simp only [hstage] at hin hreached ⊢
      exact fetch hin.1 hin.2 hfree hreached
  | opening prog =>
      simp only [hstage] at hin hreached ⊢
      cases hreturned : prog.returned with
      | some value =>
          obtain rfl := Prog.eq_pure_of_returned hreturned
          exact run hin hreached
      | none =>
          rw [← prog.forget_unit] at hreached
          obtain ⟨hsafe, hreached⟩ := proceed .opening hreached hin fails
          rw [Prog.forget_unit] at hreached
          exact ⟨hsafe, hreached⟩
  | asking height prog =>
      simp only [hstage] at hin hreached ⊢
      cases hreturned : prog.returned with
      | some answer =>
          obtain rfl := Prog.eq_pure_of_returned hreturned
          exact startFrom hin hreached
      | none =>
          obtain ⟨hsafe, hreached⟩ := proceed (.asking height) hreached hin fails
          exact ⟨hsafe, hreached⟩
  | inserting prefetcher prog =>
      simp only [hstage] at hin hreached ⊢
      cases hreturned : prog.returned with
      | some value =>
          obtain rfl := Prog.eq_pure_of_returned hreturned
          exact ⟨hin, hreached⟩
      | none =>
          rw [← prog.forget_unit] at hreached
          obtain ⟨hsafe, hreached⟩ := proceed (.inserting prefetcher) hreached hin fails
          rw [Prog.forget_unit] at hreached
          exact ⟨hsafe, hreached⟩

/-- What the process does until it is started anew. -/
theorem goesOn (h : Refined S c₀ found p) {event : Event} (hgoes : event.starts = false)
    (hfree : ∀ db commit, S.admits db commit)
    (hanswers : event.answers (Honest S.given S.network)) : Refined S c₀ found (p.step event) := by
  cases event with
  | start threadNum client => cases hgoes
  | main fails client => exact h.main fails hfree
  | prefetch index client => exact h.prefetch index hanswers
  | pipeline event => exact h.pipeline fun _ _ _ _ _ _ => hfree _ _

theorem runFrom (h : Refined S c₀ found p) {events : List Event}
    (hgoes : ∀ event ∈ events, event.starts = false) (hfree : ∀ db commit, S.admits db commit)
    (hanswers : ∀ event ∈ events, event.answers (Honest S.given S.network)) :
    Refined S c₀ found (p.runFrom events) := by
  induction events generalizing p with
  | nil => exact h
  | cons event events ih =>
      apply ih (h.goesOn (hgoes event (by simp)) hfree (hanswers event (by simp)))
      · exact fun other hmem => hgoes other (by simp [hmem])
      · exact fun other hmem => hanswers other (by simp [hmem])

theorem step (h : Refined S c₀ found p) (event : Event) (hfree : ∀ db commit, S.admits db commit)
    (hanswers : event.answers (Honest S.given S.network)) :
    ∃ found, Refined S c₀ found (p.step event) := by
  cases event with
  | start threadNum client => exact h.start threadNum hanswers
  | _ => exact ⟨found, h.goesOn rfl hfree hanswers⟩

end Refined

/-- In every run of the process, its store is in one of its own runs, on blocks in the
prefetcher's order. -/
theorem refined_run (h : InStage S found p) (hfree : ∀ db commit, S.admits db commit)
    {events : List Event} (hanswers : ∀ event ∈ events, event.answers (Honest S.given S.network)) :
    ∃ found, Refined S p.config found (p.runFrom events) := by
  induction events using List.reverseRecOn with
  | nil => exact ⟨found, h, [], trivial, rfl⟩
  | append_singleton events event ih =>
      rw [Indexer.runFrom, List.foldl_append]
      obtain ⟨found, hrefined⟩ := ih fun event hmem => hanswers event (List.mem_append_left _ hmem)
      exact hrefined.step event hfree (hanswers event (by simp))

theorem inStage_initial (S : Setting) : InStage S [] .initial := kept_initial S

end BitcoinIndexer.Process
