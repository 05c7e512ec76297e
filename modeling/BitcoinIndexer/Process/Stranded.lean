import BitcoinIndexer.Modes.Quiescent
import BitcoinIndexer.Node.Severed
import BitcoinIndexer.Process.Committed

/-!
# A reorg that goes too deep

A new process goes on above the block a hundred heights below the stored head.  Where the
node has replaced that block's successor too, no block links, now or after any restart.
-/

namespace BitcoinIndexer.Process

open BitcoinIndexer.Types
open BitcoinIndexer.Tables
open BitcoinIndexer.ReferenceChain
open BitcoinIndexer.Representation
open BitcoinIndexer.Worker
open BitcoinIndexer.Store
open BitcoinIndexer.Pipeline
open BitcoinIndexer.Node
open BitcoinIndexer.Grounding
open BitcoinIndexer.Following
open BitcoinIndexer.Schedules
open BitcoinIndexer.Guarantees
open BitcoinIndexer.Quiescent
open BitcoinIndexer.Interleaving

/-- The chain that the node names by height has no block on the one called `id`. -/
def Replaced (given : Set BlockData) (id : BlockHash) (client : Client) : Prop :=
  ∀ height hash, client.getBlockHash height = .ok hash →
    ∀ block ∈ given, block.id = hash → block.data.header.prevBlockhash ≠ id

/-- What the node names at a height, in such a chain. -/
def Beside (given : Set BlockData) (id : BlockHash) (height : ℕ) (hash : BlockHash) : Prop :=
  Known given height hash ∧
    ∀ block ∈ given, block.id = hash → block.data.header.prevBlockhash ≠ id

variable {S : Setting} {c₀ : StoreConfig} {found : List BlockHash} {rows : List BlockRow}
variable {id : BlockHash} {p : Indexer} {event : Event} {client : Client} {threadNum : ℕ}

theorem Honest.beside {given : Set BlockData} {network : Network}
    (h : Honest given network client) (hreplaced : Replaced given id client) :
    Truthful (Beside given id) (fun item => item.prevBlockId ≠ id) client.rpc where
  ids := fun height hash hanswer =>
    ⟨h.truthful.ids height hash hanswer, hreplaced height hash (optional_eq_ok hanswer)⟩
  blocks := by
    rintro height hash data prevBlockId ⟨hknown, hbeside⟩ hanswer
    obtain ⟨hgiven, hprev⟩ := h.truthful.blocks height hash data prevBlockId hknown hanswer
    have hne := hbeside _ hgiven rfl
    exact fun heq => hne (hprev.trans heq)

/-- The stored chain is `found`, in `rows`; the running process asks for blocks on `id` only. -/
structure Stranded (S : Setting) (c₀ : StoreConfig) (found : List BlockHash)
    (rows : List BlockRow) (id : BlockHash) (p : Indexer) : Prop where
  refined : Refined S c₀ found p
  dormant : Dormant rows p.config
  severed : ∀ s, p.stage.prefetcher = some s →
    p.stage = .fetching s ∧ Severed (Beside S.given id) (found.length - 101) id s

theorem chain_congr {db after : Db} (h : after.block = db.block) : after.chain = db.chain := by
  simp only [Db.chain, Db.readDbChainCurrentBlockCount, Db.blocksAtHeight, h]

/-- A new process starts there. -/
theorem start_eq (hlong : 101 < found.length) (hid : found[found.length - 101]? = some id)
    {start : Option (WithHeightAndId BlockHash Unit)} (hstarts : Starts start (startChain found)) :
    start = some ⟨found.length - 101, id, ()⟩ := by
  have hlength := length_startChain found
  have hresumed : resumed found.length = found.length - 101 + 1 := by
    rw [resumed, if_neg (by omega)]
    omega
  cases start with
  | none =>
      rw [Starts] at hstarts
      rw [hstarts, hresumed] at hlength
      cases hlength
  | some last =>
      obtain ⟨hheight, hlast⟩ := hstarts
      obtain ⟨height, hash, data⟩ := last
      obtain rfl : height = found.length - 101 :=
        Nat.succ.inj (hheight.symm.trans (hlength.trans hresumed))
      rw [startChain, hresumed, List.getElem?_take_of_lt (Nat.lt_succ_self _), hid] at hlast
      obtain rfl := Option.some.inj hlast
      rfl

/-- A process that has just been opened on these blocks. -/
theorem stranded_start (h : Refined S c₀ found p) (hblock : p.shared.db.block = rows)
    (hchain : p.shared.db.chain ≠ []) {height : ℕ} (hcount : client.getBlockCount = .ok height)
    (hnetwork : client.network = some S.network) :
    Stranded S c₀ p.shared.db.chain rows id (p.start threadNum client) where
  refined := h.started threadNum hcount hnetwork
  dormant := by
    obtain ⟨t, hsettled⟩ := h.inStage.kept.settled
    have hstored : t.chain ≠ [] := by
      intro hnil
      have hchainEq : p.shared.db.chain = idents t.chain := hsettled.committed.chain_eq
      rw [hnil] at hchainEq
      exact hchain hchainEq
    obtain ⟨block, hblockMem⟩ := List.exists_mem_of_ne_nil _ hstored
    have hknown := t.stored block hblockMem
    have hstate : p.config.shared.db.bulkMode ≠ none := by
      intro hnone
      rw [hsettled.committed.unready hnone] at hknown
      cases hknown
    have hrows : rows ≠ [] := by
      rintro rfl
      have hrow := List.mem_map_of_mem (f := rowIn t.chain) hknown
      rw [← hsettled.committed.shows.rows, hblock] at hrow
      cases hrow
    have hnext := Dormant.start (c := p.config) hrows hblock hstate height S.network
      (resumed p.shared.db.chain.length)
    simp only [Indexer.start, hcount, hnetwork]
    exact hnext
  severed := by
    intro s hs
    simp only [Indexer.start, hcount, hnetwork] at hs
    cases hs

theorem Reads.dormant {before after : StoreConfig} (hreads : Reads before after)
    (h : Dormant rows before) : Dormant rows after := by
  cases hreads with
  | nothing => exact h
  | access fails => exact h.step fails
  | worker event => exact h.interfere event
  | getHashByHeight hreturned height => exact h.getHashByHeight hreturned height

namespace Stranded

theorem block (h : Stranded S c₀ found rows id p) : p.shared.db.block = rows :=
  h.dormant.untouched.block

variable (hlong : 101 < found.length) (hid : found[found.length - 101]? = some id)
include hlong hid

/-- The prefetcher of the process yields nothing and only goes down. -/
theorem severed_step (h : Stranded S c₀ found rows id p) (hgoes : event.starts = false)
    (hanswers : event.answers fun client =>
      Honest S.given S.network client ∧ Replaced S.given id client)
    {s : Node.State BlockHash Block} (hafter : (p.step event).stage.prefetcher = some s) :
    Severed (Beside S.given id) (found.length - 101) id s := by
  cases hbefore : p.stage.prefetcher with
  | none =>
      obtain ⟨start, count, hstage, rfl, -⟩ := exists_new hbefore hgoes hafter
      have hin := h.refined.inStage
      rw [InStage, hstage] at hin
      rw [start_eq hlong hid hin.2]
      exact severed_new _ _ _ _
  | some before =>
      obtain ⟨-, hsevered⟩ := h.severed before hbefore
      rw [prefetcher_step hbefore hgoes, Option.some.injEq] at hafter
      cases hown : p.prefetched event with
      | none =>
          rw [hown] at hafter
          exact hafter ▸ hsevered
      | some own =>
          rw [hown] at hafter
          have htruthful : event.answers fun client => Truthful (Beside S.given id)
              (fun item => item.prevBlockId ≠ id) client.rpc :=
            Event.answers_mono (fun client hclient => hclient.1.beside hclient.2) hanswers
          have hpos : 0 < found.length - 101 := Nat.sub_pos_of_lt hlong
          exact hafter ▸ hsevered.step hpos own (prefetched_answers hown htruthful)

variable (hfree : ∀ db commit, S.admits db commit)
include hfree

theorem goesOn (h : Stranded S c₀ found rows id p) (hgoes : event.starts = false)
    (hanswers : event.answers fun client =>
      Honest S.given S.network client ∧ Replaced S.given id client) :
    Stranded S c₀ found rows id (p.step event) := by
  have hhonest : event.answers (Honest S.given S.network) :=
    Event.answers_mono (fun client hclient => hclient.1) hanswers
  have hsevered : ∀ s, (p.step event).stage.prefetcher = some s →
      Severed (Beside S.given id) (found.length - 101) id s :=
    fun s hs => h.severed_step hlong hid hgoes hanswers hs
  refine ⟨h.refined.goesOn hgoes hfree hhonest, ?_, fun s hs => ⟨?_, hsevered s hs⟩⟩
  · cases event with
    | start threadNum client => cases hgoes
    | pipeline event => exact h.dormant.interfere event
    | prefetch index client =>
        rw [Indexer.step, config_prefetch]
        exact h.dormant
    | main fails client =>
        cases hbusy : p.stage.waits with
        | false => exact (reads_main hbusy fails client).dormant h.dormant
        | true =>
            cases hstage : p.stage with
            | fetching before =>
                have hbefore := (h.severed before (by rw [hstage]; rfl)).2.yielded
                simp only [Indexer.step, Indexer.mainStep, hstage] at hsevered ⊢
                have hafter := (hsevered _ (fetch_prefetcher p before)).yielded
                apply (reads_fetch _ (hafter.trans hbefore.symm)).dormant h.dormant
                simp only [Indexer.remaining, hstage]
            | _ => rw [hstage] at hbusy; cases hbusy
  · cases hbefore : p.stage.prefetcher with
    | none =>
        obtain ⟨start, count, -, -, hfetching⟩ := exists_new hbefore hgoes hs
        exact hfetching
    | some before =>
        obtain ⟨hfetching, hsince⟩ := h.severed before hbefore
        obtain ⟨after, hafter, -⟩ := waiting_step hfetching hgoes fun after hafter =>
          (hsevered after hafter).yielded.trans hsince.yielded.symm
        rw [hafter] at hs ⊢
        rw [← Option.some.inj hs]

/-- Neither does a restart help: the new process finds the same chain. -/
theorem step (h : Stranded S c₀ found rows id p) (hfound : p.shared.db.chain = found)
    (hanswers : event.answers fun client =>
      Honest S.given S.network client ∧ Replaced S.given id client) :
    Stranded S c₀ found rows id (p.step event) := by
  cases event with
  | start threadNum client =>
      cases hcount : client.getBlockCount with
      | error error =>
          simp only [Indexer.step, Indexer.start, hcount]
          exact h
      | ok height =>
          cases hnetwork : client.network with
          | none =>
              simp only [Indexer.step, Indexer.start, hcount, hnetwork]
              exact h
          | some network =>
              obtain rfl := hanswers.1.chain network hnetwork
              have hnonempty : p.shared.db.chain ≠ [] := by
                rintro hnil
                rw [← hfound, hnil] at hlong
                cases hlong
              rw [← hfound]
              exact stranded_start h.refined h.block hnonempty hcount hnetwork
  | _ => exact h.goesOn hlong hid hfree rfl hanswers

theorem runFrom (h : Stranded S c₀ found rows id p) (hfound : p.shared.db.chain = found)
    {events : List Event} (hanswers : ∀ event ∈ events, event.answers fun client =>
      Honest S.given S.network client ∧ Replaced S.given id client) :
    Stranded S c₀ found rows id (p.runFrom events) := by
  induction events using List.reverseRecOn with
  | nil => exact h
  | append_singleton events event ih =>
      rw [Indexer.runFrom, List.foldl_append]
      have hpast := ih fun event hmem => hanswers event (List.mem_append_left _ hmem)
      have hsame : (p.runFrom events).shared.db.chain = found :=
        (chain_congr (hpast.block.trans h.block.symm)).trans hfound
      exact hpast.step hlong hid hfree hsame (hanswers event (by simp))

end Stranded

/-- The node has replaced more than the last hundred stored blocks: it names no block on the
one that a process starts from.  Once a process has been started, no block is yielded, none
is stored and none becomes extinct, whatever the node answers and however often the process
is started again. -/
theorem deep_reorg_strands (given : Set BlockData) (injective : Set.InjOn BlockData.hashId given)
    (network : Network) (before after : List Event) (threadNum : ℕ) (client : Client)
    (height : ℕ) (id : BlockHash)
    (hbefore : ∀ event ∈ before, event.answers (Honest given network))
    (hcount : client.getBlockCount = .ok height) (hnetwork : client.network = some network)
    (hafter : ∀ event ∈ after, event.answers fun client =>
      Honest given network client ∧ Replaced given id client) :
    let found := (Indexer.initial.runFrom before).shared.db
    let state := ((Indexer.initial.runFrom before).start threadNum client).runFrom after
    101 < found.chain.length → found.chain[found.chain.length - 101]? = some id →
      state.shared.db.block = found.block ∧
        ∀ prefetcher, state.stage.prefetcher = some prefetcher → prefetcher.yielded = [] := by
  intro found state hlong hid
  let S := unrestricted given injective network
  obtain ⟨_, hrefined⟩ := refined_run (inStage_initial S) (fun _ _ => trivial) hbefore
  have hnonempty : found.chain ≠ [] := by
    intro hnil
    rw [hnil] at hlong
    cases hlong
  have hstarted : Stranded S Indexer.initial.config found.chain found.block id
      ((Indexer.initial.runFrom before).start threadNum client) :=
    stranded_start hrefined rfl hnonempty hcount hnetwork
  have hstranded := hstarted.runFrom hlong hid (fun _ _ => trivial) (chain_congr hstarted.block)
    hafter
  exact ⟨hstranded.block, fun s hs => (hstranded.severed s hs).2.yielded⟩

/-! ## Such a run -/

/-- Bytes up to 103 name the blocks of one chain, those from 104 on the blocks that replace
them above height 0. -/
def numbered (byte : UInt8) : BlockData :=
  if byte ≤ 103 then blockAt (byte.toNat - 1) byte (byte - 1)
  else blockAt (byte.toNat - 103) byte (if byte = 104 then 1 else byte - 1)

def longChain : List BlockData :=
  (List.range 103).map fun height => numbered (UInt8.ofNat (height + 1))

def replacingChain : List BlockData :=
  numbered 1 :: (List.range 104).map fun height => numbered (UInt8.ofNat (height + 104))

theorem id_numbered (byte : UInt8) : (numbered byte).id = hashStarting byte := by
  unfold numbered
  split_ifs <;> rfl

theorem numbered_injective : Set.InjOn BlockData.hashId (Set.range numbered) := by
  rintro _ ⟨left, rfl⟩ _ ⟨right, rfl⟩ hhashId
  simp only [BlockData.hashId, id_numbered] at hhashId
  rw [(List.cons.inj hhashId).1]

theorem ids_numbered : Set.InjOn BlockData.id (Set.range numbered) :=
  fun _ hleft _ hright hid => numbered_injective hleft hright (congrArg hashToHashId hid)

theorem longChain_honest : Honest (Set.range numbered) .bitcoin (serving longChain) := by
  apply serving_honest _ (by decide +kernel) ids_numbered
  intro block hblock
  obtain ⟨height, -, rfl⟩ := List.mem_map.1 hblock
  exact Set.mem_range_self _

theorem replacingChain_mem : ∀ block ∈ replacingChain, block ∈ Set.range numbered := by
  intro block hblock
  obtain rfl | hblock := List.mem_cons.1 hblock
  · exact Set.mem_range_self _
  · obtain ⟨height, -, rfl⟩ := List.mem_map.1 hblock
    exact Set.mem_range_self _

theorem replacingChain_honest : Honest (Set.range numbered) .bitcoin (serving replacingChain) :=
  serving_honest replacingChain_mem (by decide +kernel) ids_numbered

/-- A node that serves a chain without a block on `id`. -/
theorem serving_replaced {given : Set BlockData} {chain : List BlockData}
    (hgiven : ∀ block ∈ chain, block ∈ given) (hids : Set.InjOn BlockData.id given)
    (hprev : ∀ block ∈ chain, block.data.header.prevBlockhash ≠ id) :
    Replaced given id (serving chain) := by
  intro height hash hanswer block hblock hid
  cases hget : chain[height]? with
  | none => simp [serving, hget] at hanswer
  | some named =>
      have hnamed : named ∈ chain := List.mem_of_getElem? hget
      obtain rfl : named.id = hash := by simpa [serving, hget] using hanswer
      rw [hids hblock (hgiven named hnamed) hid]
      exact hprev named hnamed

/-- The fetching threads take a step. -/
def fetchTurn (client : Client) : List Event := [.main false client, .prefetch 0 client]

/-- A new process that stores `longChain`. -/
@[irreducible]
def storingLong : List Event :=
  working longChain 20 ++ (List.replicate 720 (fetchTurn (serving longChain))).flatten ++
    (List.replicate 30 (turn (serving longChain))).flatten

theorem storingLong_answers :
    ∀ event ∈ storingLong, event.answers (Honest (Set.range numbered) .bitcoin) := by
  have hfetch : ∀ event ∈ fetchTurn (serving longChain),
      event.answers (Honest (Set.range numbered) .bitcoin) := by
    simp [fetchTurn, Event.answers, longChain_honest]
  intro event hmem
  rw [storingLong, List.mem_append, List.mem_append] at hmem
  obtain (hopening | hfetching) | hstoring := hmem
  · exact working_answers longChain_honest 20 event hopening
  · exact rounds_answer hfetch 720 event hfetching
  · exact rounds_answer (turn_answers longChain_honest) 30 event hstoring

/-- The process is started again when the node has replaced all blocks but the first. -/
@[irreducible]
def restarting : List Event := working replacingChain 60

theorem restarting_strands :
    let found := (Indexer.initial.runFrom storingLong).shared.db
    let state := ((Indexer.initial.runFrom storingLong).start 1 (serving replacingChain)).runFrom
      restarting
    found.chain = idents longChain ∧ state.shared.db.block = found.block := by
  intro found state
  have hchain : found.chain = idents longChain := by decide +kernel
  have hlength : found.chain.length = 103 := by rw [hchain]; decide +kernel
  have hid : found.chain[found.chain.length - 101]? = some (hashStarting 3) := by
    rw [hlength, hchain]
    decide +kernel
  have hreplaced : Replaced (Set.range numbered) (hashStarting 3) (serving replacingChain) :=
    serving_replaced replacingChain_mem ids_numbered (by decide +kernel)
  have hserves : Honest (Set.range numbered) .bitcoin (serving replacingChain) ∧
      Replaced (Set.range numbered) (hashStarting 3) (serving replacingChain) :=
    ⟨replacingChain_honest, hreplaced⟩
  have hafter : ∀ event ∈ restarting, event.answers fun client =>
      Honest (Set.range numbered) .bitcoin client ∧
        Replaced (Set.range numbered) (hashStarting 3) client := by
    intro event hmem
    rw [restarting] at hmem
    obtain rfl | hmem := List.mem_cons.1 hmem
    · exact hserves
    · exact rounds_answer (turn_answers hserves) 60 event hmem
  obtain ⟨hblock, -⟩ := deep_reorg_strands (Set.range numbered) numbered_injective .bitcoin
    storingLong restarting 1 (serving replacingChain) 104 (hashStarting 3)
    storingLong_answers rfl rfl hafter (by rw [hlength]; decide) hid
  exact ⟨hchain, hblock⟩

end BitcoinIndexer.Process
