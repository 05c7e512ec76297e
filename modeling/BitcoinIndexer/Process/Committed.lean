import BitcoinIndexer.Pipeline.Draining
import BitcoinIndexer.Process.Arrival
import BitcoinIndexer.Process.Calls

/-!
# The chain of the node is stored

Once all blocks are yielded the main thread only waits.  Then nothing is left in the
batch, since the head of the node's chain has been accepted, and the workers write what
they have been handed.
-/

namespace BitcoinIndexer.Process

open BitcoinIndexer.Types
open BitcoinIndexer.Tables
open BitcoinIndexer.ReferenceChain
open BitcoinIndexer.Worker
open BitcoinIndexer.Store
open BitcoinIndexer.Pipeline
open BitcoinIndexer.Node
open BitcoinIndexer.Grounding
open BitcoinIndexer.Following
open BitcoinIndexer.Schedules
open BitcoinIndexer.Guarantees
open BitcoinIndexer.AtHead
open BitcoinIndexer.Interleaving

variable {S : Setting} {found : List BlockHash} {blocks : List BlockData} {c₀ : StoreConfig}
variable {p : Indexer} {event : Event} {events : ℕ → Event}
variable {s : Node.State BlockHash Block} {fork time : ℕ}

/-! ## Waiting -/

/-- Without a block the main thread goes on waiting, and leaves the store to its workers. -/
theorem waiting_step (hstage : p.stage = .fetching s) (hgoes : event.starts = false)
    (hnothing : ∀ after, (p.step event).stage.prefetcher = some after → after.yielded = s.yielded) :
    ∃ after, (p.step event).stage = .fetching after ∧
      (p.step event).shared = system.drift p.shared event.turn.event := by
  obtain ⟨threadNum, height, db, w, stage⟩ := p
  obtain rfl : stage = .fetching s := hstage
  cases event with
  | start threadNum client => cases hgoes
  | pipeline event => exact ⟨s, rfl, rfl⟩
  | prefetch index client => exact ⟨_, rfl, rfl⟩
  | main fails client =>
      have hyielded := hnothing _ (fetch_prefetcher _ s)
      simp only [Indexer.step, Indexer.mainStep, Indexer.fetch, hyielded,
        List.getElem?_eq_none le_rfl]
      exact ⟨_, rfl, rfl⟩

theorem waiting_runTo (hgoes : ∀ time, (events time).starts = false)
    (hstage : (p.runTo events time).stage = .fetching s)
    (hnothing : ∀ later after, time ≤ later → (p.runTo events later).stage.prefetcher = some after →
      after.yielded = s.yielded) (distance : ℕ) :
    ∃ after, (p.runTo events (time + distance)).stage = .fetching after ∧
      after.yielded = s.yielded ∧
      (p.runTo events (time + distance)).shared = FairRuns.runTo system.drift
        (p.runTo events time).shared (fun later => (events (time + later)).turn.event) distance := by
  induction distance with
  | zero => exact ⟨s, hstage, rfl, rfl⟩
  | succ distance ih =>
      obtain ⟨before, hbefore, hyielded, hshared⟩ := ih
      have hsame : ∀ after,
          ((p.runTo events (time + distance)).step (events (time + distance))).stage.prefetcher =
            some after → after.yielded = before.yielded := by
        intro after hafter
        rw [← runTo_succ] at hafter
        exact (hnothing _ after (Nat.le_add_right time (distance + 1)) hafter).trans hyielded.symm
      obtain ⟨after, hafter, hdrift⟩ := waiting_step hbefore (hgoes (time + distance)) hsame
      refine ⟨after, ?_, ?_, ?_⟩
      · rw [← Nat.add_assoc, runTo_succ, hafter]
      · exact (hsame after (by rw [hafter]; rfl)).trans hyielded
      · rw [← Nat.add_assoc, runTo_succ, hdrift, hshared]
        rfl

/-! ## The chain in the store -/

/-- What the store has accepted when all is yielded. -/
theorem Refined.accepts_all (h : Refined S c₀ found p) (hstage : p.stage = .fetching s)
    (hchain : Extends [] blocks) (hparts : Parts blocks (startChain found) fork)
    (hlong : found.length < blocks.length) (hyielded : s.yielded = (blocks.map served).drop fork) :
    consumed (startChain found) s.yielded = idents blocks ∧
      wholeLine p.db p.shared = idents blocks := by
  have hin := h.inStage
  rw [InStage, hstage] at hin
  obtain ⟨hidling, hfed⟩ := hin
  have hbase : (startChain found).length ≤ found.length := by
    rw [length_startChain]
    exact resumed_le _
  have hsome : (blocks.map served).drop fork ≠ [] := by
    rw [ne_eq, List.drop_eq_nil_iff, List.length_map]
    have hlt := hparts.le
    omega
  have hconsumed : consumed (startChain found) s.yielded = idents blocks := by
    rw [hyielded]
    obtain ⟨rest, hrest, hnil⟩ := hparts.consumed_eq hchain List.prefix_rfl hsome
    rw [← hrest, hnil rfl, List.append_nil]
  refine ⟨hconsumed, ?_⟩
  obtain ⟨hheld, hlength⟩ := hidling.wholeLine
  rw [hfed.fed_eq, hconsumed, length_idents] at hlength
  obtain heq | ⟨earlier, hearlier, heq⟩ := hheld
  · rw [heq] at hlength
    omega
  · have hne : earlier ≠ [] := by
      rintro rfl
      rw [heq, consumed_nil] at hlength
      omega
    rw [hyielded] at hearlier
    obtain ⟨rest, hrest, -⟩ := hparts.consumed_eq hchain hearlier hne
    rw [heq]
    rw [heq] at hlength
    apply (List.prefix_append _ rest).eq_of_length_le _ |>.trans hrest
    rw [hrest, length_idents]
    exact hlength

/-- Between two calls the pipeline is in order. -/
theorem Idling.pipeInv {yielded : List (RpcBlockWithPrevId BlockHash Block)} {db : IndexerStore}
    {w : World} (h : Idling S found yielded db w) : PipeInv [] w := by
  obtain ⟨line, htip | ⟨base, pending, hreorg⟩, -⟩ := h
  · exact htip.at_view.1
  · exact hreorg.at_view.1

/-- What is accepted is written once nothing is handed over and nothing waits. -/
theorem committed_of_drained {yielded : List (RpcBlockWithPrevId BlockHash Block)}
    {db : IndexerStore} {w : World} {head : BlockHeight} (hidling : Idling S found yielded db w)
    (hready : Ready head db w) (hline : (wholeLine db w).length = head + 1)
    (hdrained : Drained w) (hhealthy : healthy w) : w.db.chain = wholeLine db w := by
  have hflight : flightBlocks w = [] := by
    simp [flightBlocks, hdrained hhealthy]
  have hbatch : db.batch = [] := by
    cases hreorg : db.isInReorg with
    | true => exact (hready.paused hreorg).1
    | false =>
        refine hready.handsOver (.inr ?_)
        obtain ⟨-, hcount⟩ := (followed hidling.idle).1 hreorg
        rw [hready.node, ← hcount, hline]
  rw [wholeLine, hflight, hbatch]
  simp

theorem readying_runTo {head : BlockHeight} (h : Readying head p.config)
    (hgoes : ∀ time, (events time).starts = false) (time : ℕ) :
    Readying head (p.runTo events time).config := by
  induction time with
  | zero => exact h
  | succ time ih =>
      rw [runTo_succ]
      exact (asks_step (hgoes time)).readying ih

/-- Where the stored chain and the served one part. -/
theorem Refined.exists_parts (h : Refined S c₀ found p)
    (hserved : ServedBy S.given S.network blocks events)
    (hreaches : Reaches p.shared.db.chain blocks) :
    ∃ fork, Parts blocks (startChain p.shared.db.chain) fork := by
  obtain ⟨t, hsettled⟩ := h.inStage.kept.settled
  have hchain : p.shared.db.chain = idents t.chain := hsettled.committed.chain_eq
  have hids : ∀ block ∈ t.chain, ∀ other ∈ blocks, block.id = other.id → block = other := by
    intro block hmem other hother hid
    refine S.injective (hsettled.given block ?_) (hserved.mem other hother) ?_
    · exact t.stored block hmem
    · rw [BlockData.hashId, BlockData.hashId, hid]
  rw [hchain] at hreaches ⊢
  exact Process.exists_parts t.linked hserved.chain hids hreaches

theorem started_settings {client : Client} {network : Network} {height : ℕ} (threadNum : ℕ)
    (hcount : client.getBlockCount = .ok height) (hnetwork : client.network = some network) :
    (p.start threadNum client).stage.prefetcher = none ∧
      (p.start threadNum client).threadNum = threadNum ∧
        (p.start threadNum client).nodeStartingChainheadHeight = height := by
  simp only [Indexer.start, hcount, hnetwork]
  exact ⟨rfl, rfl, rfl⟩

/-- A process is started while the node serves a chain longer than the stored one that has
replaced at most the last hundred stored blocks.  The threads go on, and the node stops
answering with errors.  Then a call of the store fails, or from some moment on the process
waits with all of that chain and nothing else accepted, and all of it is written unless a
worker has failed. -/
theorem served_chain_committed (given : Set BlockData)
    (injective : Set.InjOn BlockData.hashId given) (network : Network) (before : List Event)
    (threadNum : ℕ) (client : Client) (blocks : List BlockData) (events : ℕ → Event)
    (hbefore : ∀ event ∈ before, event.answers (Honest given network))
    (hthreads : 0 < threadNum) (hcount : client.getBlockCount = .ok (blocks.length - 1))
    (hnetwork : client.network = some network) (hserved : ServedBy given network blocks events)
    (hgoes : ∀ time, (events time).starts = false) (hscheduled : ∀ thread, Scheduled events thread) :
    let found := (Indexer.initial.runFrom before).shared.db.chain
    let state := ((Indexer.initial.runFrom before).start threadNum client).runTo events
    found.length < blocks.length → Reaches found blocks →
    (∃ time reason, (state time).remaining = .halt reason) ∨
      ∃ time, ∀ later, time ≤ later → ∃ prefetcher, (state later).stage = .fetching prefetcher ∧
        consumed (startChain found) prefetcher.yielded = idents blocks ∧
        wholeLine (state later).db (state later).shared = idents blocks ∧
        (healthy (state later).shared → (state later).shared.db.chain = idents blocks) := by
  intro found state hlong hreaches
  let S := unrestricted given injective network
  obtain ⟨_, hrefined⟩ := refined_run (inStage_initial S) (fun _ _ => trivial) hbefore
  have hstarted := hrefined.started (S := S) threadNum hcount hnetwork
  obtain ⟨fork, hparts⟩ := hrefined.exists_parts (S := S) hserved hreaches
  refine Classical.or_iff_not_imp_left.2 fun hlives => ?_
  have hunhindered : Unhindered ((Indexer.initial.runFrom before).start threadNum client) events :=
    { runs := (runs_initial.runFrom before).step (.start threadNum client)
      goes := hgoes
      scheduled := hscheduled
      lives := fun time reason hhalted => hlives ⟨time, reason, hhalted⟩ }
  obtain ⟨hnone, hstaff, hheight⟩ :=
    started_settings (p := Indexer.initial.runFrom before) threadNum hcount hnetwork
  have hrefinedAt := refined_runTo hstarted hgoes (fun _ _ => trivial) hserved.honest
  obtain ⟨first, prefetcher, hstage, hall⟩ := hunhindered.gets_all hstarted (fun _ _ => trivial)
    hserved hnone (by rw [hstaff]; exact hthreads)
    (by rw [hheight]; exact (Nat.le_sub_one_of_lt hlong).trans (Nat.le_succ _)) hlong hparts
  have hyielded := hall first prefetcher le_rfl (by rw [hstage]; rfl)
  have hwaits := waiting_runTo hgoes hstage fun later after hle hafter =>
    (hall later after hle hafter).trans hyielded.symm
  obtain ⟨hidling, -⟩ : Idling S found prefetcher.yielded (state first).db (state first).shared ∧
      Fed S (startChain found) prefetcher (state first).shared.fed := by
    have hin := (hrefinedAt first).inStage
    rwa [InStage, hstage] at hin
  have hfair := fairWorkers (fun thread => hscheduled (.pipeline thread)) first
  obtain ⟨wait, hdrained⟩ := hfair.drains hidling.pipeInv
  refine ⟨first + wait, fun later hle => ?_⟩
  obtain ⟨distance, rfl⟩ := Nat.exists_eq_add_of_le ((Nat.le_add_right first wait).trans hle)
  obtain ⟨after, hafter, hsame, hshared⟩ := hwaits distance
  have hrefinedNow := hrefinedAt (first + distance)
  obtain ⟨hconsumed, hline⟩ :=
    hrefinedNow.accepts_all hafter hserved.chain hparts hlong (hsame.trans hyielded)
  refine ⟨after, hafter, hconsumed, hline, fun hhealthy => ?_⟩
  obtain ⟨_, hready⟩ := readying_runFrom before
  have hreadying := readying_runTo (readying_started hready threadNum hcount hnetwork) hgoes
    (first + distance)
  have hreturned : (state (first + distance)).config.prog = .pure () := by
    simp only [Indexer.config, Indexer.remaining, state, hafter]
  have hin := hrefinedNow.inStage
  rw [InStage, hafter] at hin
  have hthen : Drained (state (first + distance)).shared := by
    rw [hshared]
    exact hdrained distance (Nat.le_of_add_le_add_left hle)
  have hlength : (wholeLine (state (first + distance)).db
      (state (first + distance)).shared).length = blocks.length - 1 + 1 := by
    rw [hline, length_idents]
    omega
  rw [committed_of_drained hin.1 (hreadying.returned hreturned) hlength hthen hhealthy, hline]

theorem serving_serves {chain : List BlockData}
    (hids : ∀ left ∈ chain, ∀ right ∈ chain, left.id = right.id → left = right) :
    Serves (chain.map served) (serving chain).rpc where
  ids := by
    intro height answer hanswer
    rw [List.getElem?_map]
    cases hget : chain[height]? with
    | none =>
        obtain rfl : none = answer := by simpa [Client.rpc, serving, hget, optional] using hanswer
        rfl
    | some block =>
        obtain rfl : some block.id = answer := by
          simpa [Client.rpc, serving, hget, optional] using hanswer
        rfl
  blocks := by
    intro item hmem answer hanswer
    obtain ⟨block, hblock, rfl⟩ := List.mem_map.1 hmem
    change (serving chain).rpc.getBlockById block.id = .ok answer at hanswer
    cases hfind : chain.find? (·.id = block.id) with
    | none => simp [Client.rpc, serving, hfind, optional, Except.map] at hanswer
    | some other =>
        have hid : other.id = block.id := by simpa using List.find?_some hfind
        obtain rfl := hids other (List.mem_of_find?_eq_some hfind) block hblock hid
        have hsame : some (other.data, other.data.header.prevBlockhash) = answer := by
          simpa [Client.rpc, serving, hfind, optional, Except.map] using hanswer
        exact hsame.symm

theorem serving_answering (chain : List BlockData) : Answering chain (serving chain) where
  count := ⟨chain.length - 1, rfl⟩
  hashes := by
    intro height
    cases hget : chain[height]? <;> simp [Client.rpc, serving, hget, optional]
  blocks := by
    intro block hblock
    cases hfind : chain.find? (·.id = block.id) with
    | none =>
        have hdiffers := List.find?_eq_none.1 hfind block hblock
        simp at hdiffers
    | some other => simp [Client.rpc, serving, hfind, optional, Except.map]

/-! ### A process that does all it has to -/

/-- Where the main thread waits with every block yielded, no call has failed, nor will one. -/
theorem lives_of_yielded (hrefined : Refined S c₀ found p)
    (hgoes : ∀ time, (events time).starts = false) (hfree : ∀ db commit, S.admits db commit)
    (hserved : ServedBy S.given S.network blocks events) (hnone : p.stage.prefetcher = none)
    (hthreads : 0 < p.threadNum) (hlong : found.length < blocks.length)
    (hparts : Parts blocks (startChain found) fork)
    (hstage : (p.runTo events time).stage = .fetching s)
    (hall : blocks.length - fork ≤ s.yielded.length) (later : ℕ) (reason : Halt) :
    (p.runTo events later).remaining ≠ .halt reason := by
  intro hhalted
  obtain hle | hle := Nat.le_total later time
  · have hthen := halted_runTo hgoes hle hhalted
    simp only [Indexer.remaining, hstage] at hthen
    cases hthen
  · have hthere : (p.runTo events time).stage.prefetcher = some s := by
      rw [hstage]
      rfl
    obtain ⟨begun, start, count, hbefore, hbegun⟩ :=
      exists_begun hrefined hgoes hfree hserved.honest hnone (by rw [hthere]; rfl)
    have hstays : ∀ later after, time ≤ later →
        (p.runTo events later).stage.prefetcher = some after → after.yielded = s.yielded := by
      have hrest : ∀ later after, time ≤ later →
          (p.runTo events later).stage.prefetcher = some after →
            after.yielded = (blocks.map served).drop fork :=
        fun later after => hbegun.yielded_all hgoes hserved hthreads hlong hparts hbefore hthere hall
      exact fun later after hle hafter =>
        (hrest later after hle hafter).trans (hrest time s le_rfl hthere).symm
    obtain ⟨distance, rfl⟩ := Nat.exists_eq_add_of_le hle
    obtain ⟨after, hafter, -⟩ := waiting_runTo hgoes hstage hstays distance
    simp only [Indexer.remaining, hafter] at hhalted
    cases hhalted

/-- The given steps, and then everyone takes turns. -/
def settling (first : List Event) (client : Client) (time : ℕ) : Event :=
  (first[time]?).getD (rounds client time)

section Settling

variable {first : List Event} {client : Client}

theorem settling_cases (time : ℕ) :
    settling first client time ∈ first ∨ settling first client time = rounds client time := by
  rw [settling]
  cases hget : first[time]? with
  | none => exact .inr rfl
  | some event => exact .inl (List.mem_of_getElem? hget)

theorem settling_goes (hfirst : ∀ event ∈ first, event.starts = false) (time : ℕ) :
    (settling first client time).starts = false := by
  obtain hmem | heq := settling_cases time
  · exact hfirst _ hmem
  · rw [heq]
    exact rounds_go client time

theorem settling_answers {holds : Client → Prop} (hfirst : ∀ event ∈ first, event.answers holds)
    (h : holds client) (time : ℕ) : (settling first client time).answers holds := by
  obtain hmem | heq := settling_cases time
  · exact hfirst _ hmem
  · rw [heq]
    exact rounds_answers h time

theorem settling_scheduled (first : List Event) (client : Client) (thread : Thread) :
    Scheduled (settling first client) thread := by
  intro time
  obtain ⟨later, hle, hthread⟩ := rounds_scheduled client thread (max time first.length)
  refine ⟨later, (Nat.le_max_left _ _).trans hle, ?_⟩
  rwa [settling, List.getElem?_eq_none ((Nat.le_max_right _ _).trans hle), Option.getD_none]

theorem settling_runTo (first : List Event) (client : Client) (p : Indexer) :
    p.runTo (settling first client) first.length = p.runFrom first := by
  have hfirst : (List.range first.length).map (settling first client) = first := by
    apply List.ext_getElem (by simp)
    intro index hleft hright
    rw [List.getElem_map, List.getElem_range, settling, List.getElem?_eq_getElem hright,
      Option.getD_some]
  rw [Indexer.runTo, hfirst]

end Settling

/-- Enough turns for the process that finds the other chain at the node. -/
@[irreducible]
def replacingTurns : List Event := (List.replicate 60 (turn (serving secondChain))).flatten

theorem replacing_goes (time : ℕ) :
    (settling replacingTurns (serving secondChain) time).starts = false := by
  apply settling_goes
  rw [replacingTurns]
  exact fun event hmem => turns_go hmem

theorem replacing_served : ServedBy {block | block ∈ flipped} .bitcoin secondChain
    (settling replacingTurns (serving secondChain)) := by
  have hanswers : ∀ {holds : Client → Prop}, holds (serving secondChain) →
      ∀ time, (settling replacingTurns (serving secondChain) time).answers holds := by
    intro holds h
    apply settling_answers _ h
    rw [replacingTurns]
    exact rounds_answer (turn_answers h) 60
  exact
    { mem := by decide
      chain := by simp [Extends, secondChain, Types.blockAt, blockWith]
      honest := hanswers (flipped_honest (.inr rfl))
      serves := hanswers (serving_serves (by decide))
      errors := ⟨0, fun time _ => hanswers (serving_answering _) time⟩ }

/-- No call of the second process fails. -/
theorem replacing_lives (time : ℕ) (reason : Halt) :
    (((Indexer.initial.runFrom (working firstChain 60)).start 1 (serving secondChain)).runTo
      (settling replacingTurns (serving secondChain)) time).remaining ≠ .halt reason := by
  let S := unrestricted _ flipped_injective .bitcoin
  let p := (Indexer.initial.runFrom (working firstChain 60)).start 1 (serving secondChain)
  obtain ⟨_, hrefined⟩ := refined_run (inStage_initial S) (fun _ _ => trivial)
    (working_answers (flipped_honest (.inl rfl)) 60)
  have hstarted : Refined S Indexer.initial.config
      (Indexer.initial.runFrom (working firstChain 60)).shared.db.chain p :=
    hrefined.started 1 rfl rfl
  rw [firstChain_stored] at hstarted
  have hparts : Parts secondChain (startChain (idents firstChain)) 1 :=
    ⟨by decide, by decide, .inl (by decide)⟩
  have hwaits : (p.runFrom replacingTurns).stage.waits = true := by decide +kernel
  have hyielded : (p.runFrom replacingTurns).stage.prefetcher.map (·.yielded.length) = some 2 := by
    decide +kernel
  rw [← settling_runTo replacingTurns (serving secondChain)] at hwaits hyielded
  cases hstage : (p.runTo (settling replacingTurns (serving secondChain))
      replacingTurns.length).stage with
  | fetching s =>
      rw [hstage] at hyielded
      exact lives_of_yielded hstarted replacing_goes (fun _ _ => trivial) replacing_served rfl
        Nat.one_pos (by decide) hparts hstage (Option.some.inj hyielded).ge time reason
  | _ => rw [hstage] at hwaits; cases hwaits

theorem second_chain_committed :
    let p := (Indexer.initial.runFrom (working firstChain 60)).start 1 (serving secondChain)
    let state := p.runTo (settling replacingTurns (serving secondChain))
    p.shared.db.chain = idents firstChain ∧
      (∀ time reason, (state time).remaining ≠ .halt reason) ∧
        ∃ time, ∀ later, time ≤ later →
          healthy (state later).shared → (state later).shared.db.chain = idents secondChain := by
  intro p state
  have hlong : (Indexer.initial.runFrom (working firstChain 60)).shared.db.chain.length <
      secondChain.length := by
    rw [firstChain_stored]
    decide
  refine ⟨by decide +kernel, replacing_lives, ?_⟩
  obtain ⟨time, reason, hhalted⟩ | ⟨time, hlater⟩ := served_chain_committed _ flipped_injective
    .bitcoin (working firstChain 60) 1 (serving secondChain) secondChain
    (settling replacingTurns (serving secondChain))
    (working_answers (flipped_honest (.inl rfl)) 60) Nat.one_pos rfl rfl replacing_served
    replacing_goes (settling_scheduled _ _) hlong (by rw [firstChain_stored]; exact .inl (by decide))
  · exact absurd hhalted (replacing_lives time reason)
  · refine ⟨time, fun later hle => ?_⟩
    obtain ⟨-, -, -, -, hcommitted⟩ := hlater later hle
    exact hcommitted

end BitcoinIndexer.Process
