import BitcoinIndexer.Process.Reaching

/-!
# The chain of the node arrives

A process is started while the node serves one chain, at most a hundred blocks below its
head different from the stored one.  The prefetcher goes down to where the two part and up
again, every block is inserted, and in the end the store has accepted that chain.
-/

namespace BitcoinIndexer.Process

open BitcoinIndexer.Types
open BitcoinIndexer.Tables
open BitcoinIndexer.ReferenceChain
open BitcoinIndexer.OrderedMap
open BitcoinIndexer.Worker
open BitcoinIndexer.Store
open BitcoinIndexer.Node
open BitcoinIndexer.Grounding
open BitcoinIndexer.Following
open BitcoinIndexer.Schedules
open BitcoinIndexer.Guarantees
open BitcoinIndexer.Interleaving

variable {S : Setting} {found : List BlockHash} {blocks : List BlockData}
variable {p : Indexer} {events : ℕ → Event}

/-! ## The chain served -/

/-- The block as the node serves it. -/
def served (block : BlockData) : RpcBlockWithPrevId BlockHash Block :=
  ⟨⟨block.height, block.id, block.data⟩, block.data.header.prevBlockhash⟩

@[simp]
theorem idents_served (blocks : List BlockData) : idents (blocks.map served) = idents blocks := by
  simp only [idents, List.map_map]
  rfl

theorem extends_served {chain : List BlockHash} :
    Extends chain (blocks.map served) ↔ Extends chain blocks := by
  induction blocks generalizing chain with
  | nil => exact Iff.rfl
  | cons block blocks ih => exact and_congr_right fun _ => ih

/-- The node answers every question about its chain. -/
structure Answering (blocks : List BlockData) (client : Client) : Prop where
  count : ∃ count, client.rpc.getBlockCount = .ok count
  hashes : ∀ height, ∃ answer, client.rpc.getBlockIdByHeight height = .ok answer
  blocks : ∀ block ∈ blocks, ∃ answer, client.rpc.getBlockById block.id = .ok answer

/-! ## Where the chains part -/

/-- The chain below the head of the one found by which a process still finds its way. -/
def Reaches (found : List BlockHash) (blocks : List BlockData) : Prop :=
  found.length ≤ 101 ∨ (idents blocks)[found.length - 101]? = found[found.length - 101]?

theorem resumed_le (count : ℕ) : resumed count ≤ count := by
  unfold resumed
  split <;> omega

theorem length_startChain (found : List BlockHash) :
    (startChain found).length = resumed found.length := by
  rw [startChain, List.length_take, Nat.min_eq_left (resumed_le _)]

/-- Above `fork` the served chain replaces what the caller knows, below they agree. -/
structure Parts (blocks : List BlockData) (base : List BlockHash) (fork : ℕ) : Prop where
  le : fork ≤ base.length
  agrees : base.take fork = (idents blocks).take fork
  last : fork = base.length ∨ base.length = 1 ∧ fork = 0 ∧ base[0]? ≠ (idents blocks)[0]?

/-- Chains of blocks that their ids determine part once. -/
theorem exists_parts {known : List BlockData} (hknown : Extends [] known) (hchain : Extends [] blocks)
    (hids : ∀ block ∈ known, ∀ other ∈ blocks, block.id = other.id → block = other)
    (hreaches : Reaches (idents known) blocks) :
    ∃ fork, Parts blocks (startChain (idents known)) fork := by
  have hlength := length_startChain (idents known)
  have hagree : ∀ height, height + 1 = (startChain (idents known)).length →
      (idents blocks)[height]? = (idents known)[height]? →
        Parts blocks (startChain (idents known)) (height + 1) := by
    intro height hheight hget
    have hlt : height < (idents known).length := by
      have := resumed_le (idents known).length
      omega
    have hid : (idents known)[height]? = some (idents known)[height] := List.getElem?_eq_getElem hlt
    have htake := hknown.take_eq hchain hids hid (hget.trans hid)
    refine ⟨hheight.le, ?_, .inl hheight⟩
    rw [startChain, ← hlength, ← hheight, List.take_take, Nat.min_self, idents, idents,
      ← List.map_take, ← List.map_take, htake]
  cases hcount : (startChain (idents known)).length with
  | zero => exact ⟨0, Nat.zero_le _, rfl, .inl hcount.symm⟩
  | succ height =>
      by_cases hget : (idents blocks)[height]? = (idents known)[height]?
      · exact ⟨_, hagree height hcount.symm hget⟩
      · have hbase : ∀ index, index < (startChain (idents known)).length →
            (startChain (idents known))[index]? = (idents known)[index]? := by
          intro index hlt
          rw [startChain, List.getElem?_take_of_lt (by omega)]
        obtain rfl : height = 0 := by
          by_contra hne
          obtain hshort | hat := hreaches
          · simp only [hlength, resumed] at hcount
            split at hcount <;> omega
          · refine hget ?_
            have hsame : (idents known).length - 101 = height := by
              simp only [hlength, resumed] at hcount
              split at hcount <;> omega
            rwa [hsame] at hat
        refine ⟨0, Nat.zero_le _, rfl, .inr ⟨hcount, rfl, fun heq => hget ?_⟩⟩
        rw [hbase 0 (by omega)] at heq
        exact heq.symm

variable {base : List BlockHash} {fork : ℕ}
variable {start : Option (WithHeightAndId BlockHash Unit)}

/-- The prefetcher knows one hash below its first height. -/
theorem Parts.forkAt (h : Parts blocks base fork) (hstarts : Starts start base)
    (threadNum count : ℕ) :
    let s : Node.State BlockHash Block := .new threadNum count start
    s.prefetcher.curHeight = base.length ∧
      ForkAt (blocks.map served) s.prefetcher.prevHashes s.prefetcher.curHeight fork := by
  intro s
  cases start with
  | none =>
      obtain rfl : base = [] := hstarts
      obtain rfl : fork = 0 := Nat.le_zero.1 h.le
      refine ⟨rfl, Nat.zero_le _, fun hpos => absurd hpos (lt_irrefl 0), ?_, ?_⟩
      · exact fun height _ _ hlt => absurd hlt (Nat.not_lt_zero height)
      · exact fun _ height hlt => absurd hlt (Nat.not_lt_zero height)
  | some last =>
      obtain ⟨hlength, hid⟩ := hstarts
      have hcur : s.prefetcher.curHeight = last.height + 1 := rfl
      have hself : s.prefetcher.prevHashes.get last.height = some last.id :=
        BTreeMap.get_insert_self _ _ _
      refine ⟨hcur.trans hlength.symm, ?_, ?_, ?_, ?_⟩
      · rw [hcur, ← hlength]
        exact h.le
      · intro hpos
        obtain rfl : fork = last.height + 1 := by
          obtain hfork | ⟨-, hzero, -⟩ := h.last <;> omega
        have hat : (idents blocks)[last.height]? = some last.id := by
          have hsame := congrArg (fun ids => ids[last.height]?) h.agrees
          simp only [List.getElem?_take_of_lt (Nat.lt_succ_self last.height)] at hsame
          rw [← hsame, hid]
        rw [idents, List.getElem?_map] at hat
        obtain ⟨block, hblock, hsame⟩ := Option.map_eq_some_iff.1 hat
        refine ⟨served block, ?_, hself.trans (congrArg some hsame.symm)⟩
        rw [Nat.add_sub_cancel, List.getElem?_map, hblock]
        rfl
      · intro height item hfork hlt hitem
        obtain hlast | ⟨hone, rfl, hne⟩ := h.last
        · omega
        · obtain ⟨rfl, hzero⟩ : height = 0 ∧ last.height = 0 := by omega
          rw [hzero] at hself hid
          rw [hself]
          intro heq
          refine hne ?_
          rw [hid, heq, ← idents_served, idents, List.getElem?_map, hitem]
          rfl
      · intro hfork height hlt
        obtain hlast | ⟨hone, -, -⟩ := h.last
        · omega
        · obtain rfl : height = last.height := by omega
          rw [hself]
          exact Option.some_ne_none _

/-! ## The prefetcher in the process -/

/-- The node serves `blocks`, with errors only up to some time. -/
structure ServedBy (given : Set BlockData) (network : Network) (blocks : List BlockData)
    (events : ℕ → Event) : Prop where
  mem : ∀ block ∈ blocks, block ∈ given
  chain : Extends [] blocks
  honest : ∀ time, (events time).answers (Honest given network)
  serves : ∀ time, (events time).answers fun client => Serves (blocks.map served) client.rpc
  errors : ∃ last, ∀ time, last ≤ time → (events time).answers (Answering blocks)

theorem settings_step {event : Event} (hgoes : event.starts = false) :
    (p.step event).threadNum = p.threadNum ∧
      (p.step event).nodeStartingChainheadHeight = p.nodeStartingChainheadHeight := by
  obtain ⟨threadNum, height, db, w, stage⟩ := p
  cases event with
  | start threadNum client => cases hgoes
  | pipeline event => exact ⟨rfl, rfl⟩
  | prefetch index client => cases stage <;> exact ⟨rfl, rfl⟩
  | main fails client =>
      simp only [Indexer.step, Indexer.mainStep]
      cases stage with
      | opening prog =>
          simp only
          split
          · simp only [Indexer.run]
            repeat' split
            all_goals exact ⟨rfl, rfl⟩
          · exact ⟨rfl, rfl⟩
      | asking height prog =>
          simp only
          split
          · rename_i answer _
            cases answer <;> exact ⟨rfl, rfl⟩
          · exact ⟨rfl, rfl⟩
      | starting start =>
          simp only [Indexer.startPrefetcher]
          split <;> exact ⟨rfl, rfl⟩
      | fetching prefetcher =>
          simp only [Indexer.fetch]
          split <;> exact ⟨rfl, rfl⟩
      | inserting prefetcher prog =>
          simp only
          split <;> exact ⟨rfl, rfl⟩
      | _ => exact ⟨rfl, rfl⟩

theorem settings_runTo (hgoes : ∀ time, (events time).starts = false) (time : ℕ) :
    (p.runTo events time).threadNum = p.threadNum ∧
      (p.runTo events time).nodeStartingChainheadHeight = p.nodeStartingChainheadHeight := by
  induction time with
  | zero => exact ⟨rfl, rfl⟩
  | succ time ih =>
      rw [runTo_succ]
      have hstep := settings_step (p := p.runTo events time) (hgoes time)
      exact ⟨hstep.1.trans ih.1, hstep.2.trans ih.2⟩

variable {c₀ : StoreConfig}

theorem refined_runTo (h : Refined S c₀ found p) (hgoes : ∀ time, (events time).starts = false)
    (hfree : ∀ db commit, S.admits db commit)
    (hhonest : ∀ time, (events time).answers (Honest S.given S.network)) (time : ℕ) :
    Refined S c₀ found (p.runTo events time) := by
  apply h.runFrom _ hfree
  · intro event hmem
    obtain ⟨earlier, -, rfl⟩ := List.mem_map.1 hmem
    exact hhonest earlier
  · intro event hmem
    obtain ⟨earlier, -, rfl⟩ := List.mem_map.1 hmem
    exact hgoes earlier

/-- The prefetcher has been started where the chain of the caller ends. -/
structure Begun (found : List BlockHash) (p : Indexer) (events : ℕ → Event) (begun count : ℕ)
    (start : Option (WithHeightAndId BlockHash Unit)) : Prop where
  stage : (p.runTo events begun).stage = .fetching (.new p.threadNum count start)
  starts : Starts start (startChain found)

/-- A prefetcher that is there has been started. -/
theorem exists_begun (hrefined : Refined S c₀ found p) (hgoes : ∀ time, (events time).starts = false)
    (hfree : ∀ db commit, S.admits db commit)
    (hhonest : ∀ time, (events time).answers (Honest S.given S.network))
    (hnone : p.stage.prefetcher = none) {time : ℕ}
    (hthere : (p.runTo events time).stage.prefetcher.isSome = true) :
    ∃ begun start count, begun ≤ time ∧ Begun found p events begun count start := by
  obtain ⟨last, hle, hbefore, hafter⟩ : ∃ last, last + 1 ≤ time ∧
      (p.runTo events last).stage.prefetcher = none ∧
        (p.runTo events (last + 1)).stage.prefetcher.isSome = true := by
    induction time with
    | zero => rw [show (p.runTo events 0).stage = p.stage from rfl, hnone] at hthere; cases hthere
    | succ time ih =>
        cases hbefore : (p.runTo events time).stage.prefetcher with
        | none => exact ⟨time, le_rfl, hbefore, hthere⟩
        | some s =>
            obtain ⟨last, hle, hrest⟩ := ih (by rw [hbefore]; rfl)
            exact ⟨last, Nat.le_succ_of_le hle, hrest⟩
  obtain ⟨s, hs⟩ := Option.isSome_iff_exists.1 hafter
  rw [runTo_succ] at hs
  obtain ⟨start, count, hstage, rfl, hnew⟩ := exists_new hbefore (hgoes last) hs
  have hin := (refined_runTo hrefined hgoes hfree hhonest last).inStage
  rw [InStage, hstage] at hin
  rw [(settings_runTo hgoes last).1] at hnew
  exact ⟨last + 1, start, count, hle, by rw [runTo_succ, hnew], hin.2⟩

/-- The process comes to start its prefetcher. -/
theorem exists_fetching (h : Unhindered p events) (hrefined : Refined S c₀ found p)
    (hfree : ∀ db commit, S.admits db commit) (hserved : ServedBy S.given S.network blocks events)
    (hnone : p.stage.prefetcher = none)
    (hlow : found.length ≤ p.nodeStartingChainheadHeight + 1) :
    ∃ begun start count, Begun found p events begun count start := by
  obtain ⟨last, herrors⟩ := hserved.errors
  have hcounts : ∀ time, last ≤ time → ∀ fails client, events time = .main fails client →
      ∃ count, client.rpc.getBlockCount = .ok count := by
    intro time hle fails client hevent
    have hanswering := herrors time hle
    rw [hevent] at hanswering
    exact hanswering.count
  obtain ⟨time, -, hlevel⟩ := h.reaches hcounts
  have hthere : (p.runTo events time).stage.prefetcher.isSome = true := by
    have hin := (refined_runTo hrefined h.goes hfree hserved.honest time).inStage
    cases hstage : (p.runTo events time).stage with
    | fetching prefetcher => rfl
    | inserting prefetcher prog => rfl
    | failed fault =>
        rw [InStage, hstage] at hin
        obtain ⟨-, -, hhigh⟩ := hin
        rw [(settings_runTo h.goes time).2] at hhigh
        exact absurd hhigh (not_lt.2 hlow)
    | _ => rw [hstage] at hlevel; simp [Stage.level] at hlevel
  obtain ⟨begun, start, count, -, hbegun⟩ :=
    exists_begun hrefined h.goes hfree hserved.honest hnone hthere
  exact ⟨begun, start, count, hbegun⟩

theorem prefetched_answers {event : Event} {own : Node.Event BlockHash Block}
    {answered : Rpc BlockHash Block → Prop} (hown : p.prefetched event = some own)
    (h : event.answers fun client => answered client.rpc) : own.answers answered := by
  cases event with
  | start threadNum client => cases hown
  | pipeline event => cases hown
  | prefetch index client =>
      obtain rfl := Option.some.inj hown
      exact h
  | main fails client =>
      simp only [Indexer.prefetched] at hown
      split at hown
      · obtain rfl := Option.some.inj hown
        split <;> exact trivial
      · cases hown

variable {s : Node.State BlockHash Block} {hashes : BTreeMap ℕ BlockHash} {top time : ℕ}

theorem converging_runTo (hgoes : ∀ time, (events time).starts = false)
    (hserved : ServedBy S.given S.network blocks events)
    (hdescent : Descent (blocks.map served) hashes top fork)
    (hstage : (p.runTo events time).stage.prefetcher = some s)
    (hbegin : Converging start (blocks.map served) [] hashes top fork 0 s) (distance : ℕ) :
    ∃ after resets, (p.runTo events (time + distance)).stage.prefetcher = some after ∧
      Converging start (blocks.map served) [] hashes top fork resets after := by
  induction distance with
  | zero => exact ⟨s, 0, hstage, hbegin⟩
  | succ distance ih =>
      obtain ⟨before, resets, hbefore, hconverging⟩ := ih
      have hafter := prefetcher_step hbefore (hgoes (time + distance))
      rw [← runTo_succ] at hafter
      cases hown : (p.runTo events (time + distance)).prefetched (events (time + distance)) with
      | none =>
          rw [hown] at hafter
          exact ⟨before, resets, hafter, hconverging⟩
      | some own =>
          rw [hown] at hafter
          have hanswers := prefetched_answers hown (hserved.serves (time + distance))
          exact ⟨_, _, hafter, hconverging.step hdescent own hanswers⟩

theorem not_getsError {resets : ℕ} {old : List (RpcBlockWithPrevId BlockHash Block)}
    (h : Converging start (blocks.map served) old hashes top fork resets s) {event : Event}
    {own : Node.Event BlockHash Block} (hown : p.prefetched event = some own)
    (hanswers : event.answers (Answering blocks)) : ¬ s.GetsError own := by
  cases event with
  | start threadNum client => cases hown
  | pipeline event => cases hown
  | main fails client =>
      simp only [Indexer.prefetched] at hown
      split at hown
      · obtain rfl := Option.some.inj hown
        split <;> exact id
      · cases hown
  | prefetch index client =>
      obtain rfl := Option.some.inj hown
      rintro ⟨w, hget, herror⟩
      have hchain := h.supplied.workers w (List.mem_of_getElem? hget)
      unfold Worker.GetsError at herror
      unfold Worker.OnChain at hchain
      split at herror
      · rename_i height hpc
        obtain ⟨error, herror⟩ := herror
        obtain ⟨answer, hanswer⟩ := hanswers.hashes height
        rw [hanswer] at herror
        cases herror
      · rename_i height id hpc
        obtain ⟨error, herror⟩ := herror
        rw [hpc] at hchain
        obtain ⟨item, hitem, rfl⟩ := hchain
        obtain ⟨block, hblock, rfl⟩ := List.mem_map.1 (List.mem_of_getElem? hitem)
        obtain ⟨answer, hanswer⟩ := hanswers.blocks block hblock
        rw [show (served block).block.id = block.id from rfl, hanswer] at herror
        cases herror
      · exact herror

/-- Everyone who helps the prefetcher goes on to take its steps in the process. -/
theorem Unhindered.yields (h : Unhindered p events) (hserved : ServedBy S.given S.network blocks events)
    (hdescent : Descent (blocks.map served) hashes top fork)
    (hstage : (p.runTo events time).stage.prefetcher = some s)
    (hbegin : Converging start (blocks.map served) [] hashes top fork 0 s) :
    ∃ distance after, (p.runTo events (time + distance)).stage.prefetcher = some after ∧
      blocks.length - fork ≤ after.yielded.length := by
  have hall := converging_runTo h.goes hserved hdescent hstage hbegin
  let part := fun distance => (p.runTo events (time + distance)).stage.prefetcher.getD s
  have hpart : ∀ distance, (p.runTo events (time + distance)).stage.prefetcher =
      some (part distance) := by
    intro distance
    obtain ⟨after, resets, hafter, -⟩ := hall distance
    simp only [part, hafter, Option.getD_some]
  have hconverging : ∀ distance, ∃ resets,
      Converging start (blocks.map served) [] hashes top fork resets (part distance) := by
    intro distance
    obtain ⟨after, resets, hafter, hafterwards⟩ := hall distance
    obtain rfl : after = part distance := Option.some.inj (hafter.symm.trans (hpart distance))
    exact ⟨resets, hafterwards⟩
  have hsteps : ∀ distance, part (distance + 1) = FairRuns.within State.step (part distance)
      ((p.runTo events (time + distance)).prefetched (events (time + distance))) := by
    intro distance
    have hnext := prefetcher_step (hpart distance) (h.goes (time + distance))
    rw [← runTo_succ] at hnext
    exact Option.some.inj ((hpart (distance + 1)).symm.trans hnext)
  obtain ⟨last, herrors⟩ := hserved.errors
  have hfair : ∀ thread distance, ∃ later, distance ≤ later ∧
      (Helps (blocks.map served).length (part later) thread →
        ∃ own, (p.runTo events (time + later)).prefetched (events (time + later)) = some own ∧
          own.thread = thread) := by
    intro thread distance
    have hmain : ∃ later fails client, distance ≤ later ∧
        (p.runTo events (time + later)).stage = .fetching (part later) ∧
        events (time + later) = .main fails client := by
      obtain ⟨later, after, fails, client, hle, hfetching, hevent⟩ :=
        h.fetches (by rw [hpart distance]; rfl)
      obtain ⟨further, rfl⟩ := Nat.exists_eq_add_of_le hle
      rw [Nat.add_assoc] at hfetching hevent
      have hsame : some after = some (part (distance + further)) := by
        rw [← hpart (distance + further), hfetching]
        rfl
      obtain rfl := Option.some.inj hsame
      exact ⟨distance + further, fails, client, Nat.le_add_right _ _, hfetching, hevent⟩
    cases thread with
    | caller =>
        obtain ⟨later, fails, client, hle, hfetching, hevent⟩ := hmain
        refine ⟨later, hle, fun hhelps => ⟨.next, ?_, rfl⟩⟩
        have hidle : (part later).phase = .idle := hhelps
        simp only [Indexer.prefetched, hevent, hfetching, hidle, if_true]
    | iterator =>
        obtain ⟨later, fails, client, hle, hfetching, hevent⟩ := hmain
        refine ⟨later, hle, fun hhelps => ⟨.consumer, ?_, rfl⟩⟩
        have hbusy : (part later).phase ≠ .idle := by
          intro hidle
          simp [Helps, hidle] at hhelps
        simp only [Indexer.prefetched, hevent, hfetching, hbusy, if_false]
    | worker index =>
        obtain ⟨later, hle, hthread⟩ := h.scheduled (.prefetcher index) (time + distance)
        obtain ⟨further, rfl⟩ := Nat.exists_eq_add_of_le hle
        refine ⟨distance + further, Nat.le_add_right _ _, fun _ => ?_⟩
        rw [← Nat.add_assoc]
        cases hevent : events (time + distance + further) with
        | prefetch other client =>
            rw [hevent] at hthread
            obtain rfl := Thread.prefetcher.inj (Option.some.inj hthread)
            exact ⟨.worker other client.rpc, rfl, rfl⟩
        | _ => rw [hevent] at hthread; cases hthread
  have hadmitted : ∀ distance own, last ≤ distance →
      (p.runTo events (time + distance)).prefetched (events (time + distance)) = some own →
        own.answers (Serves (blocks.map served)) ∧ ¬ (part distance).GetsError own := by
    intro distance own hle hown
    obtain ⟨resets, hthen⟩ := hconverging distance
    exact ⟨prefetched_answers hown (hserved.serves (time + distance)),
      not_getsError hthen hown (herrors (time + distance) (by omega))⟩
  obtain ⟨later, -, hgoal⟩ :=
    (arrival hdescent).observed hsteps hadmitted hfair (hconverging last)
  refine ⟨later, part later, hpart later, ?_⟩
  simpa using hgoal

theorem yielded_runTo (hgoes : ∀ time, (events time).starts = false) {later : ℕ}
    (hle : time ≤ later) (hstage : (p.runTo events time).stage.prefetcher = some s) :
    ∃ after, (p.runTo events later).stage.prefetcher = some after ∧
      s.yielded.length ≤ after.yielded.length := by
  induction later, hle using Nat.le_induction with
  | base => exact ⟨s, hstage, le_rfl⟩
  | succ later _ ih =>
      obtain ⟨before, hbefore, hlength⟩ := ih
      have hafter := prefetcher_step hbefore (hgoes later)
      rw [← runTo_succ] at hafter
      refine ⟨_, hafter, hlength.trans ?_⟩
      cases (p.runTo events later).prefetched (events later) with
      | none => exact le_rfl
      | some own =>
          obtain hsame | ⟨-, hmore⟩ := yielded_step before own
          · exact (congrArg List.length hsame).ge
          · exact (Nat.le_succ _).trans hmore.ge

/-! ## All blocks are yielded -/

/-- What is yielded from the fork on grows to the served chain on what the caller knows. -/
theorem Parts.consumed_eq (h : Parts blocks base fork) (hchain : Extends [] blocks)
    {earlier : List (RpcBlockWithPrevId BlockHash Block)}
    (hinitial : earlier <+: (blocks.map served).drop fork) (hsome : earlier ≠ []) :
    ∃ rest, consumed base earlier ++ rest = idents blocks ∧
      (earlier = (blocks.map served).drop fork → rest = []) := by
  have hsplit : base.take fork ++ idents ((blocks.map served).drop fork) = idents blocks := by
    rw [h.agrees, ← idents_served, idents, idents, ← List.map_take, ← List.map_append,
      List.take_append_drop]
  have hextends : Extends (base.take fork) ((blocks.map served).drop fork) := by
    have hall := extends_served.2 hchain
    rw [← List.take_append_drop fork (blocks.map served)] at hall
    have hbelow : idents ((blocks.map served).take fork) = base.take fork := by
      rw [h.agrees, ← idents_served, idents, idents, List.map_take]
    have hrest := (extends_append.1 hall).2
    rwa [List.nil_append, hbelow] at hrest
  obtain ⟨later, hlater⟩ := hinitial
  rw [← hlater] at hextends hsplit
  refine ⟨idents later, ?_, fun heq => ?_⟩
  · rw [consumed_of_extends h.le (extends_append.1 hextends).1 hsome, List.append_assoc,
      ← idents_append, hsplit]
  · rw [← heq] at hlater
    rw [List.append_right_eq_self.1 hlater, idents_nil]

namespace Begun

variable {begun count : ℕ}

/-- From its start on the prefetcher makes its way to the served chain. -/
theorem converging (h : Begun found p events begun count start)
    (hserved : ServedBy S.given S.network blocks events) (hthreads : 0 < p.threadNum)
    (hlong : found.length < blocks.length) (hparts : Parts blocks (startChain found) fork) :
    ∃ hashes top, Descent (blocks.map served) hashes top fork ∧
      Converging start (blocks.map served) [] hashes top fork 0 (.new p.threadNum count start) := by
  have hbase : (startChain found).length ≤ found.length := by
    rw [length_startChain]
    exact resumed_le _
  obtain ⟨hcur, hfork⟩ := hparts.forkAt h.starts p.threadNum count
  have hsound := sound_new (δ := Block) p.threadNum count start
  have hchain := extends_served.2 hserved.chain
  have hdescent := hfork.descent hsound hchain (by rw [hcur, List.length_map]; omega)
  have hnew : JustStarted (State.new p.threadNum count start : Node.State BlockHash Block) := by
    cases start <;> exact ⟨rfl, .inl rfl⟩
  exact ⟨_, _, hdescent, hnew.converging hsound hthreads hfork.le⟩

theorem prefetcher (h : Begun found p events begun count start) :
    (p.runTo events begun).stage.prefetcher = some (.new p.threadNum count start) := by
  rw [h.stage]
  rfl

/-- Blocks are yielded from the fork on, and no others. -/
theorem yielded (h : Begun found p events begun count start)
    (hgoes : ∀ time, (events time).starts = false)
    (hserved : ServedBy S.given S.network blocks events) (hthreads : 0 < p.threadNum)
    (hlong : found.length < blocks.length) (hparts : Parts blocks (startChain found) fork)
    {later : ℕ} {after : Node.State BlockHash Block} (hle : begun ≤ later)
    (hnow : (p.runTo events later).stage.prefetcher = some after) :
    after.yielded <+: (blocks.map served).drop fork := by
  obtain ⟨hashes, top, hdescent, hbegin⟩ := h.converging hserved hthreads hlong hparts
  obtain ⟨distance, rfl⟩ := Nat.exists_eq_add_of_le hle
  obtain ⟨other, resets, hother, hconverging⟩ :=
    converging_runTo hgoes hserved hdescent h.prefetcher hbegin distance
  obtain rfl := Option.some.inj (hother.symm.trans hnow)
  cases hconverging.course with
  | descending hnothing =>
      rw [hnothing]
      exact List.nil_prefix
  | ascending yields hpos hyielded =>
      rw [hyielded]
      exact List.take_prefix _ _

/-- What has been yielded stays, so that all of it is all there will be. -/
theorem yielded_all (h : Begun found p events begun count start)
    (hgoes : ∀ time, (events time).starts = false)
    (hserved : ServedBy S.given S.network blocks events) (hthreads : 0 < p.threadNum)
    (hlong : found.length < blocks.length) (hparts : Parts blocks (startChain found) fork)
    {time later : ℕ} {after : Node.State BlockHash Block} (hbegun : begun ≤ time)
    (hthere : (p.runTo events time).stage.prefetcher = some s)
    (hall : blocks.length - fork ≤ s.yielded.length) (hle : time ≤ later)
    (hnow : (p.runTo events later).stage.prefetcher = some after) :
    after.yielded = (blocks.map served).drop fork := by
  obtain ⟨same, hsame, hmore⟩ := yielded_runTo hgoes hle hthere
  obtain rfl := Option.some.inj (hsame.symm.trans hnow)
  have hinitial := h.yielded hgoes hserved hthreads hlong hparts (hbegun.trans hle) hnow
  apply hinitial.eq_of_length_le
  rw [List.length_drop, List.length_map]
  exact hall.trans hmore

end Begun

/-- From some moment on the process only waits, and every block from the fork on has been
yielded. -/
theorem Unhindered.gets_all (h : Unhindered p events) (hrefined : Refined S c₀ found p)
    (hfree : ∀ db commit, S.admits db commit)
    (hserved : ServedBy S.given S.network blocks events) (hnone : p.stage.prefetcher = none)
    (hthreads : 0 < p.threadNum) (hlow : found.length ≤ p.nodeStartingChainheadHeight + 1)
    (hlong : found.length < blocks.length) (hparts : Parts blocks (startChain found) fork) :
    ∃ time prefetcher, (p.runTo events time).stage = .fetching prefetcher ∧
      ∀ later after, time ≤ later → (p.runTo events later).stage.prefetcher = some after →
        after.yielded = (blocks.map served).drop fork := by
  obtain ⟨begun, start, count, hbegun⟩ := exists_fetching h hrefined hfree hserved hnone hlow
  obtain ⟨hashes, top, hdescent, hbegin⟩ := hbegun.converging hserved hthreads hlong hparts
  obtain ⟨distance, all, hall, hyields⟩ := h.yields hserved hdescent hbegun.prefetcher hbegin
  obtain ⟨time, prefetcher, fails, client, hle, hstage, -⟩ := h.fetches (by rw [hall]; rfl)
  exact ⟨time, prefetcher, hstage, fun later after hlater hnow =>
    hbegun.yielded_all h.goes hserved hthreads hlong hparts (Nat.le_add_right begun distance) hall
      hyields (hle.trans hlater) hnow⟩

end BitcoinIndexer.Process
