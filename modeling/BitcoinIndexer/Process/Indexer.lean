import BitcoinIndexer.Core.Stages
import BitcoinIndexer.Db.IndexerStore
import BitcoinIndexer.Node.Prefetcher

/-!
# The indexer process

The main thread opens the store, starts the prefetcher below the stored chain head and
inserts every block it yields.  The workers of the prefetcher and those of the store run
beside it, the node may answer each question differently, and the process may end and be
started anew at any moment.
-/

namespace BitcoinIndexer.Process

open BitcoinIndexer.Types
open BitcoinIndexer.Tables
open BitcoinIndexer.Worker
open BitcoinIndexer.Store
open BitcoinIndexer.Node
open BitcoinIndexer.Interleaving

/-! ## The client of the node -/

inductive ClientError where
  /-- `Block height out of range` -/
  | outOfRange
  | other
  deriving DecidableEq

/-- What `bitcoincore_rpc::Client` answers at one moment. -/
structure Client where
  getBlockCount : Except ClientError ℕ
  /-- `get_blockchain_info()?.chain` -/
  getBlockchainInfo : Except ClientError String
  getBlockHash : ℕ → Except ClientError BlockHash
  getById : BlockHash → Except ClientError Block

def networkFromStr (s : String) : Except String Network :=
  match s with
  | "main" => .ok .bitcoin
  | "test" => .ok .testnet
  | "regtest" => .ok .regtest
  | s => .error ("Unknown bitcoin chain " ++ s)

def Client.network (client : Client) : Option Network := do
  let chain ← client.getBlockchainInfo.toOption
  (networkFromStr chain).toOption

/-- That there is no such block yet is no error. -/
def optional {α : Type} : Except ClientError α → Except RpcError (Option α)
  | .ok answer => .ok (some answer)
  | .error .outOfRange => .ok none
  | .error .other => .error .failed

def Client.rpc (client : Client) : Rpc BlockHash Block where
  getBlockCount := client.getBlockCount.mapError fun _ => .failed
  getBlockIdByHeight := fun height => optional (client.getBlockHash height)
  getBlockById := fun hash =>
    (optional (client.getById hash)).map (·.map fun block => (block, block.header.prevBlockhash))

/-! ## The process -/

/-- Where `run` panics. -/
inductive Fault where
  /-- `assert!(last_indexed_height <= self.node_starting_chainhead_height)` -/
  | headAboveNode
  /-- `expect("Block hash should be there")` -/
  | hashMissing
  deriving DecidableEq

/-- Where the main thread is. -/
inductive Stage : Type 1 where
  | down
  | opening (prog : StoreM Unit)
  | asking (height : BlockHeight) (prog : StoreM (Option BlockHash))
  | starting (start : Option (WithHeightAndId BlockHash Unit))
  | fetching (prefetcher : Node.State BlockHash Block)
  | inserting (prefetcher : Node.State BlockHash Block) (prog : StoreM Unit)
  | failed (fault : Fault)

/-- The prefetcher, once it has been started. -/
def Stage.prefetcher : Stage → Option (Node.State BlockHash Block)
  | .fetching prefetcher | .inserting prefetcher _ => some prefetcher
  | _ => none

/-- Between two blocks. -/
def Stage.waits : Stage → Bool
  | .fetching _ => true
  | _ => false

/-- The process with all its threads, and the database. -/
structure Indexer : Type 1 where
  threadNum : ℕ
  nodeStartingChainheadHeight : BlockHeight
  db : IndexerStore
  shared : World
  stage : Stage

inductive Event where
  /-- A new process; `threadNum` is twice the number of its CPUs. -/
  | start (threadNum : ℕ) (client : Client)
  | main (fails : Bool) (client : Client)
  | prefetch (index : ℕ) (client : Client)
  | pipeline (event : WorkerEvent)

/-- The prefetcher's item as the store takes it. -/
def blockData (block : WithHeightAndId BlockHash Block) : BlockData :=
  ⟨block.height, block.id, block.data⟩

/-- The blocks of a stored chain that a process starts from know their successors from
the prefetcher only. -/
def resumed (blockCount : ℕ) : ℕ :=
  if blockCount = 0 then 0 else blockCount - 1 - 100 + 1

namespace Indexer

def initial : Indexer where
  threadNum := 0
  nodeStartingChainheadHeight := 0
  db := .opened .freshBulk .bitcoin 0 0
  shared := World.initial
  stage := .down

/-- The main thread calls a function of the store. -/
def call {α : Type} (p : Indexer) (prog : StoreM α) (stage : StoreM α → Stage) : Indexer :=
  { p with db := (prog.settle p.db).2, stage := stage (prog.settle p.db).1 }

def proceed {α : Type} (p : Indexer) (fails : Bool) (prog : StoreM α) (stage : StoreM α → Stage) :
    Indexer :=
  let rest := system.proceed fails prog p.db p.shared
  { p with db := rest.2.1, shared := rest.2.2, stage := stage rest.1 }

/-- `Indexer::new` up to the opening of the store; a start that fails before it leaves no
trace. -/
def start (p : Indexer) (threadNum : ℕ) (client : Client) : Indexer :=
  match client.getBlockCount, client.network with
  | .ok height, some network =>
      { p with
        threadNum := threadNum
        nodeStartingChainheadHeight := height
        shared := enter (.start height network (resumed p.shared.db.chain.length)) p.shared
        }.call (Store.new height network) .opening
  | _, _ => p

/-- `run` up to its first question to the database. -/
def run (p : Indexer) : Indexer :=
  match p.db.getHeadHeight with
  | none => { p with stage := .starting none }
  | some lastIndexedHeight =>
      if lastIndexedHeight ≤ p.nodeStartingChainheadHeight then
        p.call (getHashByHeight (lastIndexedHeight - 100)) (.asking (lastIndexedHeight - 100))
      else { p with stage := .failed .headAboveNode }

def startFrom (p : Indexer) (height : BlockHeight) : Option BlockHash → Indexer
  | none => { p with stage := .failed .hashMissing }
  | some id => { p with stage := .starting (some ⟨height, id, ()⟩) }

/-- `Prefetcher::new`, which asks for the block count until it is told. -/
def startPrefetcher (p : Indexer) (start : Option (WithHeightAndId BlockHash Unit))
    (client : Client) : Indexer :=
  match client.rpc.getBlockCount with
  | .error _ => p
  | .ok count => { p with stage := .fetching (.new p.threadNum count start) }

def processBlock (p : Indexer) (prefetcher : Node.State BlockHash Block) (block : BlockData) :
    Indexer :=
  { p with shared := enter (.insert block) p.shared }.call (Store.insert block)
    (.inserting prefetcher)

/-- One step in `next` of the prefetcher, and what `run` does with a block it returns. -/
def fetch (p : Indexer) (before : Node.State BlockHash Block) : Indexer :=
  let prefetcher := before.step (if before.phase = .idle then .next else .consumer)
  match prefetcher.yielded[before.yielded.length]? with
  | none => { p with stage := .fetching prefetcher }
  | some item => p.processBlock prefetcher (blockData item.block)

def mainStep (p : Indexer) (fails : Bool) (client : Client) : Indexer :=
  match p.stage with
  | .down => p
  | .opening prog =>
      match prog.returned with
      | some _ => p.run
      | none => p.proceed fails prog .opening
  | .asking height prog =>
      match prog.returned with
      | some answer => p.startFrom height answer
      | none => p.proceed fails prog (.asking height)
  | .starting start => p.startPrefetcher start client
  | .fetching prefetcher => p.fetch prefetcher
  | .inserting prefetcher prog =>
      match prog.returned with
      | some _ => { p with stage := .fetching prefetcher }
      | none => p.proceed fails prog (.inserting prefetcher)
  | .failed _ => p

/-- A step of a worker of the prefetcher. -/
def prefetchStep (p : Indexer) (index : ℕ) (client : Client) : Indexer :=
  match p.stage with
  | .fetching prefetcher =>
      { p with stage := .fetching (prefetcher.step (.worker index client.rpc)) }
  | .inserting prefetcher prog =>
      { p with stage := .inserting (prefetcher.step (.worker index client.rpc)) prog }
  | _ => p

def step (p : Indexer) : Event → Indexer
  | .start threadNum client => p.start threadNum client
  | .main fails client => p.mainStep fails client
  | .prefetch index client => p.prefetchStep index client
  | .pipeline event => { p with shared := p.shared.step event }

def runFrom (p : Indexer) (events : List Event) : Indexer :=
  events.foldl step p

/-- What the store is still to do. -/
def remaining (p : Indexer) : StoreM Unit :=
  match p.stage with
  | .down => .halt .stopped
  | .opening prog => prog
  | .asking _ prog => prog.forget
  | .inserting _ prog => prog
  | .starting _ | .fetching _ | .failed _ => .pure ()

def config (p : Indexer) : Config Act IndexerStore Halt World :=
  ⟨p.db, p.shared, p.remaining⟩

end Indexer

end BitcoinIndexer.Process
