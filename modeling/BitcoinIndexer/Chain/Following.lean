import BitcoinIndexer.Chain.Grounded

/-!
# Following the prefetcher

Runs of the store on blocks in the prefetcher's order, with crashes and failing
statements at any point, and the two situations the store is in between two calls.
At the tip the line continues what the caller has been given; in a reorg the pending
blocks do.
-/

namespace BitcoinIndexer.Following

open BitcoinIndexer.Types
open BitcoinIndexer.Tables
open BitcoinIndexer.Formatter
open BitcoinIndexer.ReferenceChain
open BitcoinIndexer.Worker
open BitcoinIndexer.Store
open BitcoinIndexer.Pipeline
open BitcoinIndexer.ChainState
open BitcoinIndexer.Grounding
open BitcoinIndexer.Interleaving

/-! ## The runs -/

/-- The id of the block that is not extinct at a height. -/
def hashAtHeight (db : Db) (height : BlockHeight) : Option BlockHash :=
  (db.blocksAtHeight height).head?.bind fun parts => hashIdAndRestToHash parts.1 parts.2

/-- The first pending block that replaces another one. -/
def firstDifferent (db : Db) (pending : List (BlockHeight × BlockData)) : Option BlockHeight :=
  (pending.find? fun entry => (hashAtHeight db entry.1).any (· ≠ entry.2.id)).map (·.2.height)

def isIndexed (db : Db) (block : BlockData) : Bool :=
  (db.readDbBlockExtinctByHashId block.hashId).isSome

/-- What the reorg that `block` completes will do. -/
def planned (store : IndexerStore) (db : Db) (block : BlockData) : Commit :=
  let pending := (store.pendingReorg.below block.height).insert block.height block
  let height := (firstDifferent db pending.entries).getD store.chainBlockCount
  let blocks := (pending.splitOff height).values
  .reorg store.mode height (blocks.filter (isIndexed db)) (blocks.filter (!isIndexed db ·))

/-- Calls follow one that has returned, except that the process may be started anew at
any time; a block fed is given and continues what the caller has been given. -/
def prefetched (S : Setting) : Discipline Act IndexerStore Halt World WorkerEvent Call where
  event := fun event w => ∀ failAt, event = .writer failAt → Admitted S w
  access := fun _ _ _ => True
  call := fun call c =>
    match call with
    | .start _ network _ => network = S.network
    | .insert block => c.prog = .pure () ∧ Feeds c.shared.fed block ∧ block ∈ S.given ∧
        (c.locals.isInReorg = true → block.height = c.locals.chainBlockCount →
          S.admits c.shared.db (planned c.locals c.shared.db block))
    | .getHashByHeight _ => c.prog = .pure ()

/-! ## What holds at every moment -/

/-- Without workers: between two processes, while one is opened and in a reorg. -/
def Resting (S : Setting) (w : World) : Prop := w.workers = none ∧ ∃ t, Settled S t w

def Busy (S : Setting) (w : World) : Prop :=
  ∃ extra next line fed t, PipeInv extra w ∧ Grounded S line fed t next w

def Kept (S : Setting) (w : World) : Prop := Resting S w ∨ Busy S w

/-- The ways a call may end other than by returning `Ok`. -/
inductive Excused (S : Setting) (w : World) : Halt → Prop where
  | stopped : Excused S w .stopped
  | err (error : SqlError) (h : S.tolerates error) : Excused S w (.err error)
  | sendFailed (h : ¬ healthy w) : Excused S w (.panicked .sendFailed)
  | workerDied (h : ¬ healthy w) : Excused S w (.panicked .workerDied)
  | format (reason : FormatPanic) : Excused S w (.panicked (.format reason))
  | fetchedCount : Excused S w (.panicked .fetchedCount)

def Ends (S : Setting) (reason : Halt) (_ : IndexerStore) (w : World) : Prop :=
  Kept S w ∧ Excused S w reason

variable {S : Setting} {line fed : List BlockHash} {t : BlockTree} {next : List BlockData}
variable {w : World} {extra : List BlockHash} {store : IndexerStore}

theorem Kept.settled (h : Kept S w) : ∃ t, Settled S t w := by
  obtain ⟨-, t, hsettled⟩ | ⟨_, _, _, _, t, -, hgrounded⟩ := h
  · exact ⟨t, hsettled⟩
  · exact ⟨t, hgrounded.toSettled⟩

theorem Kept.blameless (h : Kept S w) : Blameless S w := by
  obtain ⟨hworkers, -⟩ | ⟨_, _, _, _, t, -, hgrounded⟩ := h
  · intro p hp
    rw [hworkers] at hp
    exact absurd hp (by simp)
  · exact hgrounded.blameless

theorem Kept.step (h : Kept S w) {event : WorkerEvent} (hevent : (prefetched S).event event w) :
    Kept S (w.step event) := by
  obtain ⟨hworkers, hsettled⟩ | ⟨extra, next, line, fed, t, hinv, hgrounded⟩ := h
  · rw [step_none hworkers]
    exact .inl ⟨hworkers, hsettled⟩
  · obtain ⟨t', hgrounded'⟩ := hgrounded.step hinv hevent
    exact .inr ⟨extra, next, line, fed, t', hinv.step event, hgrounded'⟩

/-- A thread that has failed stays failed. -/
theorem unhealthy_step (h : ¬ healthy w) (event : WorkerEvent) : ¬ healthy (w.step event) := by
  cases hworkers : w.workers with
  | none => exact absurd (healthy_none hworkers) h
  | some p =>
      rw [healthy_some hworkers] at h
      have htransition := transition_step hworkers event
      generalize w.step event = after at htransition
      cases htransition with
      | stay => rwa [healthy_some hworkers]
      | _ =>
          intro hafter
          have hhealthy := hafter _ rfl
          simp_all [Healthy, sound]

theorem Excused.step {reason : Halt} (h : Excused S w reason) (event : WorkerEvent) :
    Excused S (w.step event) reason := by
  cases h with
  | stopped => exact .stopped
  | err error htolerated => exact .err error htolerated
  | sendFailed hunhealthy => exact .sendFailed (unhealthy_step hunhealthy event)
  | workerDied hunhealthy => exact .workerDied (unhealthy_step hunhealthy event)
  | format reason => exact .format reason
  | fetchedCount => exact .fetchedCount

theorem stable_ends (reason : Halt) (locals : IndexerStore) :
    (prefetched S).Stable system (Ends S reason locals) :=
  fun event _ hevent h => ⟨h.1.step hevent, h.2.step event⟩

/-! ## The view on the pipeline -/

def view (S : Setting) (line fed : List BlockHash) : View (prefetched S) (Kept S) (Ends S) where
  holds := fun next w => ∃ t, Grounded S line fed t next w
  spawns := fun _ network => network = S.network
  inv := fun hinv ⟨_, h⟩ => .inr ⟨_, _, _, _, _, hinv, h⟩
  died := fun hinv ⟨_, h⟩ hunhealthy hreason => by
    refine ⟨.inr ⟨_, _, _, _, _, hinv, h⟩, ?_⟩
    obtain rfl | rfl := hreason
    · exact .sendFailed hunhealthy
    · exact .workerDied hunhealthy
  step := fun hevent hinv ⟨_, h⟩ => h.step hinv hevent
  lock := fun ⟨t, h⟩ => ⟨t, h.frame rfl rfl rfl rfl rfl h.network h.blameless⟩
  fresh := fun hinv ⟨_, h⟩ => h.fresh hinv
  handOver := fun hinv ⟨t, h⟩ hworkers _ => ⟨t, h.handOver hinv hworkers⟩
  closeTx := fun {next w p} _ ⟨t, h⟩ hworkers =>
    ⟨t, h.frame rfl rfl rfl rfl rfl (by simpa using h.network p hworkers)
      (by simpa [Blameless] using h.blameless p hworkers)⟩
  join := fun _ ⟨t, h⟩ _ _ _ _ =>
    ⟨t, h.frame rfl rfl rfl rfl rfl (by simp) (by simp [Blameless])⟩
  spawn := fun _ ⟨t, h⟩ _ hnetwork =>
    ⟨t, h.frame rfl rfl rfl rfl rfl (by simpa [Workers.new] using hnetwork)
      (by simp [Blameless, Workers.new])⟩

/-- A caller that is given something else sees the same line. -/
theorem at_feed (h : (view S line fed).At extra next w) (fed' : List BlockHash) :
    (view S line fed').At extra next { w with fed := fed' } := by
  obtain ⟨hinv, t, hgrounded⟩ := h
  exact ⟨hinv.frame rfl rfl rfl rfl rfl, t,
    { committed := hgrounded.committed
      highest := hgrounded.highest
      ready := hgrounded.ready
      extends_chain := hgrounded.extends_chain
      given := hgrounded.given
      stored := hgrounded.stored
      line_eq := hgrounded.line_eq
      fed_eq := rfl
      network := hgrounded.network
      blameless := hgrounded.blameless }⟩

/-! ## Between two calls -/

/-- Blocks under their heights, as the pending reorg keeps them. -/
def byHeight (blocks : List BlockData) : List (BlockHeight × BlockData) :=
  blocks.map fun block => (block.height, block)

/-- The line continues what the caller has been given. -/
structure AtTip (S : Setting) (line : List BlockHash) (store : IndexerStore) (w : World) :
    Prop where
  pending : store.pendingReorg.entries = []
  network : store.network = S.network
  at_view : (view S line w.fed).At [] store.batch w
  running : Running w
  fed_initial : w.fed <+: line
  count : store.chainBlockCount = line.length

/-- Everything handed over is committed; the pending blocks continue the line below
`base`, and what the caller has been given is that. -/
structure Pending (S : Setting) (line : List BlockHash) (base : ℕ) (pending : List BlockData)
    (store : IndexerStore) (w : World) : Prop where
  entries : store.pendingReorg.entries = byHeight pending
  nonempty : pending ≠ []
  network : store.network = S.network
  batch : store.batch = []
  at_view : (view S line w.fed).At [] [] w
  stopped : w.workers = none
  given : ∀ block ∈ pending, block ∈ S.given
  base_le : base ≤ line.length
  extends_base : Extends (line.take base) pending
  fed_eq : w.fed = line.take base ++ idents pending
  count : store.chainBlockCount = line.length

/-- The pending blocks do not reach above the line. -/
structure InReorg (S : Setting) (line : List BlockHash) (base : ℕ) (pending : List BlockData)
    (store : IndexerStore) (w : World) : Prop extends Pending S line base pending store w where
  below : base + pending.length ≤ line.length

/-- What the caller has been given has become the line, no shorter than the one before. -/
def Prolonged (S : Setting) (line : List BlockHash) (store : IndexerStore) (w : World) : Prop :=
  AtTip S w.fed store w ∧ line.length ≤ w.fed.length

def Reorging (S : Setting) (line : List BlockHash) (store : IndexerStore) (w : World) : Prop :=
  ∃ base pending, InReorg S line base pending store w

def Idle (S : Setting) (store : IndexerStore) (w : World) : Prop :=
  (∃ line, AtTip S line store w) ∨ ∃ line base pending, InReorg S line base pending store w

theorem step_fed (event : WorkerEvent) : (w.step event).fed = w.fed := by
  cases hworkers : w.workers with
  | none => rw [step_none hworkers]
  | some p =>
      have htransition := transition_step hworkers event
      generalize w.step event = after at htransition
      cases htransition <;> rfl

theorem AtTip.step (h : AtTip S line store w) {event : WorkerEvent}
    (hevent : (prefetched S).event event w) : AtTip S line store (w.step event) where
  pending := h.pending
  network := h.network
  at_view := by
    rw [step_fed]
    exact ⟨h.at_view.1.step event, (view S line w.fed).step hevent h.at_view.1 h.at_view.2⟩
  running := running_step h.running event
  fed_initial := by
    rw [step_fed]
    exact h.fed_initial
  count := h.count

theorem Idle.step (h : Idle S store w) {event : WorkerEvent}
    (hevent : (prefetched S).event event w) : Idle S store (w.step event) := by
  obtain ⟨line, htip⟩ | ⟨line, base, pending, hreorg⟩ := h
  · exact .inl ⟨line, htip.step hevent⟩
  · rw [step_none hreorg.stopped]
    exact .inr ⟨line, base, pending, hreorg⟩

theorem AtTip.kept (h : AtTip S line store w) : Kept S w :=
  (view S line w.fed).inv h.at_view.1 h.at_view.2

theorem InReorg.kept {base : ℕ} {pending : List BlockData}
    (h : InReorg S line base pending store w) : Kept S w :=
  (view S line w.fed).inv h.at_view.1 h.at_view.2

theorem Idle.kept (h : Idle S store w) : Kept S w := by
  obtain ⟨line, htip⟩ | ⟨line, base, pending, hreorg⟩ := h
  · exact htip.kept
  · exact hreorg.kept

theorem AtTip.idle (h : AtTip S line store w) : Idle S store w := .inl ⟨line, h⟩

theorem Prolonged.idle (h : Prolonged S line store w) : Idle S store w := h.1.idle

theorem Reorging.idle (h : Reorging S line store w) : Idle S store w := .inr ⟨line, h⟩

theorem AtTip.isInReorg (h : AtTip S line store w) : store.isInReorg = false := by
  simp [IndexerStore.isInReorg, OrderedMap.BTreeMap.isEmpty, h.pending]

theorem InReorg.isInReorg {base : ℕ} {pending : List BlockData}
    (h : InReorg S line base pending store w) : store.isInReorg = true := by
  simp [IndexerStore.isInReorg, OrderedMap.BTreeMap.isEmpty, h.entries, byHeight, h.nonempty]

end BitcoinIndexer.Following
