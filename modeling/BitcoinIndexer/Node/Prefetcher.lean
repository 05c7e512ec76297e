import BitcoinIndexer.Core.OrderedMap
import BitcoinIndexer.Core.ReferenceChain

/-!
# The block prefetcher

Worker threads poll the node for one height each and send what they get through a
bounded channel; the iterator puts the blocks back in order and starts over one
height lower when a block does not link.  A step is what one thread does between two
accesses to what it shares with others, and the node may answer each question
differently.  Heights are natural numbers; log lines and delays are left out.
-/

namespace BitcoinIndexer.Node

open BitcoinIndexer.ReferenceChain
open BitcoinIndexer.OrderedMap

structure WithHeightAndId (ι δ : Type) where
  height : ℕ
  id : ι
  data : δ
  deriving DecidableEq

structure RpcBlockWithPrevId (ι δ : Type) where
  block : WithHeightAndId ι δ
  prevBlockId : ι
  deriving DecidableEq

variable {ι δ : Type}

instance : Link (RpcBlockWithPrevId ι δ) ι where
  height := fun item => item.block.height
  ident := fun item => item.block.id
  prev := RpcBlockWithPrevId.prevBlockId

@[simp]
theorem link_height (item : RpcBlockWithPrevId ι δ) :
    Link.height item = item.block.height := rfl

@[simp]
theorem link_ident (item : RpcBlockWithPrevId ι δ) : Link.ident item = item.block.id := rfl

@[simp]
theorem link_prev (item : RpcBlockWithPrevId ι δ) : Link.prev item = item.prevBlockId := rfl

/-- An error of the node or of the connection to it. -/
inductive RpcError where
  | failed
  deriving DecidableEq

/-- What the node answers at one moment. -/
structure Rpc (ι δ : Type) where
  getBlockCount : Except RpcError ℕ
  getBlockIdByHeight : ℕ → Except RpcError (Option ι)
  getBlockById : ι → Except RpcError (Option (δ × ι))

/-! ## Workers -/

/-- Where a worker is in `run`, with its local variables. -/
inductive WorkerPc (ι δ : Type) where
  | fetchAdd
  | register (height : ℕ)
  | checkFinish (height : ℕ)
  | getId (height : ℕ)
  | getBlock (height : ℕ) (id : ι)
  | retry (height : ℕ)
  | send (height : ℕ) (item : RpcBlockWithPrevId ι δ)
  | markFetched (height : ℕ)
  | returned
  | panicked
  deriving DecidableEq

/-- `start_workers` gives each worker a set of heights in progress of its own. -/
structure Worker (ι δ : Type) where
  inProgress : BTreeMap ℕ Unit
  pc : WorkerPc ι δ
  deriving DecidableEq

namespace Worker

def new : Worker ι δ := ⟨.empty, .fetchAdd⟩

/-- The thread has ended and dropped its sender. -/
def ended (w : Worker ι δ) : Bool :=
  match w.pc with
  | .returned | .panicked => true
  | _ => false

def getMinHeightInProgress (w : Worker ι δ) : Option ℕ :=
  w.inProgress.firstKeyValue.map (·.1)

/-- `none` where the `expect` or the subtraction panics. -/
def aheadMinimum (w : Worker ι δ) (height : ℕ) : Option ℕ := do
  let least ← w.getMinHeightInProgress
  if least ≤ height then some (height - least) else none

end Worker

structure Channel (ι δ : Type) where
  capacity : ℕ
  items : List (RpcBlockWithPrevId ι δ)
  deriving DecidableEq

/-! ## The iterator -/

/-- Where the iterator's thread panics. -/
inductive Panic (ι : Type) where
  | startWorkersTwice
  | stopBeforeStart
  | wrongHeight (height : ℕ)
  | atLeastOneElement
  | reorgBeyondAcceptableDepth (height : ℕ)
  | noPrevHash (height : ℕ) (id : ι) (maxPrevHash : ℕ × ι)
  | windowExceeded
  | resetAtZero
  | rxNotAvailable
  | workersDisconnected
  | heightBelowCurrent (height : ℕ)
  deriving DecidableEq

structure Prefetcher (ι δ : Type) where
  rx : Option (Channel ι δ)
  threadJoins : List (Worker ι δ)
  outOfOrderItems : BTreeMap ℕ (RpcBlockWithPrevId ι δ)
  curHeight : ℕ
  prevHashes : BTreeMap ℕ ι
  workersFinish : Bool
  threadNum : ℕ
  endOfFastSync : ℕ
  nextHeight : ℕ
  deriving DecidableEq

namespace Prefetcher

def startWorkers (p : Prefetcher ι δ) : Except (Panic ι) (Prefetcher ι δ) :=
  if p.threadJoins = [] then
    .ok { p with
      workersFinish := false
      rx := some ⟨p.threadNum * 64, []⟩
      nextHeight := p.curHeight
      threadJoins := List.replicate p.threadNum .new }
  else .error .startWorkersTwice

/-- One step of a worker, with the answers the node has for it; `none` while it waits
for room in the channel and after its end. -/
def workerStep (p : Prefetcher ι δ) (rpc : Rpc ι δ) (w : Worker ι δ) :
    Option (Worker ι δ × Prefetcher ι δ) :=
  match w.pc with
  | .fetchAdd =>
      some ({ w with pc := .register p.nextHeight }, { p with nextHeight := p.nextHeight + 1 })
  | .register height =>
      some ({ inProgress := w.inProgress.insert height (), pc := .checkFinish height }, p)
  | .checkFinish height =>
      some ({ w with pc := if p.workersFinish then .returned else .getId height }, p)
  | .getId height =>
      match rpc.getBlockIdByHeight height with
      | .error _ => some ({ w with pc := .retry height }, p)
      | .ok none => some ({ w with pc := .checkFinish height }, p)
      | .ok (some id) => some ({ w with pc := .getBlock height id }, p)
  | .getBlock height id =>
      match rpc.getBlockById id with
      | .error _ => some ({ w with pc := .retry height }, p)
      | .ok none => some ({ w with pc := .checkFinish height }, p)
      | .ok (some (data, prevBlockId)) =>
          some ({ w with pc := .send height ⟨⟨height, id, data⟩, prevBlockId⟩ }, p)
  | .retry height =>
      match w.aheadMinimum height with
      | none => some ({ w with pc := .panicked }, p)
      | some _ => some ({ w with pc := .checkFinish height }, p)
  | .send height item =>
      match p.rx with
      | none => some ({ w with pc := .panicked }, p)
      | some channel =>
          if channel.items.length < channel.capacity then
            some ({ w with pc := .markFetched height },
              { p with rx := some { channel with items := channel.items ++ [item] } })
          else none
  | .markFetched height =>
      match w.inProgress.get height with
      | none => some ({ w with pc := .panicked }, p)
      | some _ => some ({ inProgress := w.inProgress.remove height, pc := .fetchAdd }, p)
  | .returned => none
  | .panicked => none

def windowSize : ℕ := 1000

/-- The last part of `track_reorgs`: the block links, or there is nothing to compare. -/
def record (p : Prefetcher ι δ) (item : RpcBlockWithPrevId ι δ) :
    Except (Panic ι) (Bool × Prefetcher ι δ) :=
  let inserted := p.prevHashes.insert item.block.height item.block.id
  let prevHashes :=
    if windowSize ≤ p.curHeight then inserted.remove (p.curHeight - windowSize) else inserted
  if prevHashes.len ≤ windowSize then .ok (false, { p with prevHashes := prevHashes })
  else .error .windowExceeded

/-- `true` for a block whose predecessor is not the one recorded. -/
def trackReorgs [DecidableEq ι] (p : Prefetcher ι δ) (item : RpcBlockWithPrevId ι δ) :
    Except (Panic ι) (Bool × Prefetcher ι δ) :=
  if item.block.height ≠ p.curHeight then .error (.wrongHeight item.block.height)
  else if 0 < p.curHeight then
    match p.prevHashes.get (p.curHeight - 1) with
    | some storedPrevId =>
        if storedPrevId ≠ item.prevBlockId then .ok (true, p) else p.record item
    | none =>
        match p.prevHashes.firstKeyValue, p.prevHashes.lastKeyValue with
        | some first, some maxPrevHash =>
            if p.curHeight < first.1 then
              .error (.reorgBeyondAcceptableDepth p.curHeight)
            else if p.curHeight ≠ maxPrevHash.1 + 1 then
              .error (.noPrevHash p.curHeight item.block.id maxPrevHash)
            else p.record item
        | _, _ => .error .atLeastOneElement
  else p.record item

/-- The end of `stop_workers`, once every sender is gone. -/
def joinWorkers (p : Prefetcher ι δ) : Prefetcher ι δ :=
  { p with rx := none, threadJoins := [], outOfOrderItems := .empty }

end Prefetcher

/-- What `next` stops the workers for. -/
inductive Stop where
  | endOfFastSync
  | reorg
  deriving DecidableEq

/-- Where the iterator is in `next`. -/
inductive Phase (ι : Type) where
  | idle
  | lookUp
  | receive
  | finish (stop : Stop)
  | drain (stop : Stop)
  | panicked (panic : Panic ι)
  deriving DecidableEq

/-- The prefetcher with its threads, and the blocks it has yielded. -/
structure State (ι δ : Type) where
  prefetcher : Prefetcher ι δ
  phase : Phase ι
  yielded : List (RpcBlockWithPrevId ι δ)
  deriving DecidableEq

namespace State

/-- The workers are started before `next` goes on, or the thread panics. -/
def started (s : State ι δ) (result : Except (Panic ι) (Prefetcher ι δ)) (phase : Phase ι) :
    State ι δ :=
  match result with
  | .ok p => { s with prefetcher := p, phase := phase }
  | .error panic => { s with phase := .panicked panic }

/-- `Prefetcher::new`, after `count` was read as the end of the fast sync. -/
def new (threadNum : ℕ) (count : ℕ) (lastBlock : Option (WithHeightAndId ι Unit)) :
    State ι δ :=
  let p : Prefetcher ι δ :=
    { rx := none
      threadJoins := []
      outOfOrderItems := .empty
      curHeight := match lastBlock with | some last => last.height + 1 | none => 0
      prevHashes := match lastBlock with
        | some last => BTreeMap.empty.insert last.height last.id
        | none => .empty
      workersFinish := false
      threadNum := threadNum
      endOfFastSync := count
      nextHeight := 0 }
  started ⟨p, .idle, []⟩ p.startWorkers .idle

/-- What follows `stop_workers` in `next` and in `reset_on_reorg`. -/
def restart (s : State ι δ) (p : Prefetcher ι δ) : Stop → State ι δ
  | .endOfFastSync => s.started { p with threadNum := 1 }.startWorkers .lookUp
  | .reorg =>
      if 0 < p.curHeight then
        s.started { p with curHeight := p.curHeight - 1 }.startWorkers .lookUp
      else { s with phase := .panicked .resetAtZero }

/-- What `next` does with the block of the height it waits for. -/
def deliver [DecidableEq ι] (s : State ι δ) (item : RpcBlockWithPrevId ι δ) : State ι δ :=
  match s.prefetcher.trackReorgs item with
  | .error panic => { s with phase := .panicked panic }
  | .ok (true, p) => { s with prefetcher := p, phase := .finish .reorg }
  | .ok (false, p) =>
      { prefetcher := { p with curHeight := p.curHeight + 1 }
        phase := .idle
        yielded := s.yielded ++ [item] }

/-- An item taken from the channel. -/
def receive [DecidableEq ι] (s : State ι δ) (item : RpcBlockWithPrevId ι δ) : State ι δ :=
  let p := s.prefetcher
  if item.block.height = p.curHeight then s.deliver item
  else if p.curHeight < item.block.height then
    { s with prefetcher := { p with
        outOfOrderItems := p.outOfOrderItems.insert item.block.height item } }
  else { s with phase := .panicked (.heightBelowCurrent item.block.height) }

/-- One step of the thread in `next`; `none` while it waits for the workers and
outside of `next`. -/
def consumerStep [DecidableEq ι] (s : State ι δ) : Option (State ι δ) :=
  let p := s.prefetcher
  match s.phase with
  | .idle => none
  | .panicked _ => none
  | .lookUp =>
      match p.outOfOrderItems.get p.curHeight with
      | none => some { s with phase := .receive }
      | some item =>
          let rest := p.outOfOrderItems.remove p.curHeight
          some ({ s with prefetcher := { p with outOfOrderItems := rest } }.deliver item)
  | .receive =>
      match p.rx with
      | none => some { s with phase := .panicked .rxNotAvailable }
      | some channel =>
          match channel.items with
          | item :: items =>
              some ({ s with prefetcher := { p with
                rx := some { channel with items := items } } }.receive item)
          | [] =>
              if p.threadJoins.all Worker.ended then
                some { s with phase := .panicked .workersDisconnected }
              else none
  | .finish stop =>
      some { s with prefetcher := { p with workersFinish := true }, phase := .drain stop }
  | .drain stop =>
      match p.rx with
      | none => some { s with phase := .panicked .stopBeforeStart }
      | some channel =>
          match channel.items with
          | _ :: items =>
              some { s with prefetcher := { p with rx := some { channel with items := items } } }
          | [] =>
              if p.threadJoins.all Worker.ended then some (s.restart p.joinWorkers stop)
              else none

/-- The caller asks for the next block. -/
def callNext (s : State ι δ) : Option (State ι δ) :=
  match s.phase with
  | .idle =>
      if s.prefetcher.endOfFastSync = s.prefetcher.curHeight then
        some { s with phase := .finish .endOfFastSync }
      else some { s with phase := .lookUp }
  | _ => none

/-- A step of the worker at `index`. -/
def workStep (s : State ι δ) (index : ℕ) (rpc : Rpc ι δ) : Option (State ι δ) := do
  let w ← s.prefetcher.threadJoins[index]?
  let (w', p) ← s.prefetcher.workerStep rpc w
  some { s with prefetcher := { p with threadJoins := p.threadJoins.set index w' } }

end State

inductive Event (ι δ : Type) where
  | next
  | consumer
  | worker (index : ℕ) (rpc : Rpc ι δ)

namespace State

variable [DecidableEq ι]

/-- What an event does, if the thread it belongs to can go on. -/
def step? (s : State ι δ) : Event ι δ → Option (State ι δ)
  | .next => s.callNext
  | .consumer => s.consumerStep
  | .worker index rpc => s.workStep index rpc

def step (s : State ι δ) (event : Event ι δ) : State ι δ :=
  (s.step? event).getD s

def run (s : State ι δ) (events : List (Event ι δ)) : State ι δ :=
  events.foldl step s

end State

end BitcoinIndexer.Node
