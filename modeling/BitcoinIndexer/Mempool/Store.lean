import Mathlib.Data.Finset.Card
import BitcoinIndexer.Core.Interleaving
import BitcoinIndexer.Db.IndexerStore

/-!
# The mempool indexer

`MempoolStore` and the loop of its program, as programs over their accesses to the node, to
the database and to the set of the transactions that are done.  Other programs commit to the
database between any two of them, and the mempool of the node changes.  A statement commits on
its own.
-/

namespace BitcoinIndexer.Mempool

open BitcoinIndexer.Types
open BitcoinIndexer.Tables
open BitcoinIndexer.Formatter
open BitcoinIndexer.UtxoCache
open BitcoinIndexer.Interleaving
open BitcoinIndexer.Store (indexerStateMode insertBulkMode)

structure MempoolStore where
  network : Network

/-! ## The state -/

/-- One attempt at a listed transaction: what `get_by_id` gave, and whether a query for the
outputs it spends was refused. -/
structure Attempt where
  txid : Txid
  data : Option Transaction
  refused : Bool
  deriving DecidableEq

/-- The memory of the process, with a history of its attempts, the latest one first, and of
its last listing: the ids listed and those asked for since. -/
structure Process where
  done : Finset Txid
  attempts : List Attempt
  listed : List Txid
  asked : List Txid

/-- The database, the clock of its server, and what the node knows. -/
structure World where
  db : Db
  clock : ℕ
  mempool : List Txid
  lookup : Txid → Option Transaction
  process : Process

inductive Event where
  | commit (db : Db)
  | tick (now : ℕ)
  | node (mempool : List Txid) (lookup : Txid → Option Transaction)

def World.step : Event → World → World
  | .commit db, w => { w with db := db }
  | .tick now, w => { w with clock := now }
  | .node mempool lookup, w => { w with mempool := mempool, lookup := lookup }

namespace Process

def start : Process := ⟨∅, [], [], []⟩

def list (ids : List Txid) (p : Process) : Process := { p with listed := ids, asked := [] }

def attempting (attempt : Attempt) (p : Process) : Process :=
  { p with attempts := attempt :: p.attempts, asked := attempt.txid :: p.asked }

/-- A query of the latest attempt has failed. -/
def refuse (p : Process) : Process :=
  match p.attempts with
  | [] => p
  | attempt :: attempts => { p with attempts := { attempt with refused := true } :: attempts }

def lastAttempt (txid : Txid) (p : Process) : Option Attempt :=
  p.attempts.find? fun attempt => attempt.txid = txid

end Process

/-! ## Accesses -/

inductive InsertError where
  | sql (error : SqlError)
  /-- `bail!("Couldn't find all inputs for tx {}", tx_id)` -/
  | missingInputs (txid : Txid)
  deriving DecidableEq

/-- Why no call is in progress, other than that the last one has returned `Ok`. -/
inductive Halt where
  | stopped
  | rpc
  | sql (error : SqlError)
  /-- `bail!("Indexer still in bulk mode. ..")` -/
  | bulkMode
  | panicked (panic : FormatPanic)
  deriving DecidableEq

inductive Act : Type → Type 1 where
  | getRawMempool : Act (List Txid)
  /-- `rpc.get_by_id(&tx_id).ok()` -/
  | getById (txid : Txid) : Act (Option Transaction)
  | doneLen : Act ℕ
  | doneClear : Act Unit
  | doneContains (txid : Txid) : Act Bool
  | doneInsert (txid : Txid) : Act Unit
  | query {β : Type} (select : Db → β) : Act (Except SqlError β)
  /-- `batch_execute`, given the time of the server. -/
  | execute (statement : ℕ → Db → Except SqlError Db) : Act (Except SqlError Unit)

def World.remember (change : Process → Process) (w : World) : World :=
  { w with process := change w.process }

def execStatement (statement : ℕ → Db → Except SqlError Db) (w : World) :
    Effect World Halt (Except SqlError Unit) :=
  match statement w.clock w.db with
  | .error e => .done (.error e) w
  | .ok db => .done (.ok ()) { w with db := db }

def exec : {β : Type} → Act β → Bool → World → Effect World Halt β
  | _, .getRawMempool, true, w => .halted .rpc w
  | _, .getRawMempool, false, w => .done w.mempool (w.remember (·.list w.mempool))
  | _, .getById txid, true, w => .done none (w.remember (·.attempting ⟨txid, none, false⟩))
  | _, .getById txid, false, w =>
      .done (w.lookup txid) (w.remember (·.attempting ⟨txid, w.lookup txid, false⟩))
  | _, .doneLen, _, w => .done w.process.done.card w
  | _, .doneClear, _, w => .done () (w.remember fun p => { p with done := ∅ })
  | _, .doneContains txid, _, w => .done (decide (txid ∈ w.process.done)) w
  | _, .doneInsert txid, _, w =>
      .done () (w.remember fun p => { p with done := insert txid p.done })
  | _, .query _, true, w => .done (.error .failed) (w.remember (·.refuse))
  | _, .query select, false, w => .done (.ok (select w.db)) w
  | _, .execute _, true, w => .done (.error .failed) w
  | _, .execute statement, false, w => execStatement statement w

/-! ## Programs -/

abbrev MempoolM := Prog Act MempoolStore Halt

abbrev perform {β : Type} (access : Act β) : MempoolM β := Prog.perform access

/-- The `?` of the functions that open the store. -/
def orHalt {β : Type} : Except SqlError β → MempoolM β
  | .error e => .halt (.sql e)
  | .ok value => pure value

def readIndexerState : MempoolM Mode := do
  match ← orHalt (← perform (.query indexerStateMode)) with
  | some mode => pure mode
  | none => do
      orHalt (← perform (.execute fun _ => insertBulkMode))
      pure .freshBulk

/-- `MempoolStore::new`; creating the tables where they exist changes nothing. -/
def new (network : Network) : MempoolM Unit := do
  orHalt (← perform (.execute fun _ => .ok))
  let mode ← readIndexerState
  if mode.isBulk then .halt .bulkMode else Prog.modify fun _ => ⟨network⟩

def fetchOutputs :
    List (List HashIdOutPoint) → UtxoDetailsMap → MempoolM (Except SqlError UtxoDetailsMap)
  | [], out => pure (.ok out)
  | chunk :: queries, out => do
      match ← perform (.query fun db => fetchChunk chunk db out) with
      | .error e => pure (.error e)
      | .ok out => fetchOutputs queries out

/-- `timezone('utc', now())`, which the server computes. -/
def stamped (now : ℕ) (statements : List (Insert TxRow)) : List (Insert TxRow) :=
  statements.map fun statement =>
    { statement with values := statement.values.map fun row => { row with mempoolTs := some now } }

/-- The three query strings of a transaction. -/
def mempoolQueries (f : TxFormatter) : List (ℕ → Db → Except SqlError Db) :=
  [fun now => batchExecute Db.insertTx (stamped now f.tx.drop),
    fun _ => batchExecute Db.insertOutput f.outputFmt.drop,
    fun _ => batchExecute Db.insertInput f.inputFmt.drop]

def executeQueries :
    List (ℕ → Db → Except SqlError Db) → MempoolM (Except InsertError Unit)
  | [] => pure (.ok ())
  | statement :: statements => do
      match ← perform (.execute statement) with
      | .error e => pure (.error (.sql e))
      | .ok () => executeQueries statements

def insertTxData (txId : Txid) (tx : Transaction) (utxoMap : UtxoDetailsMap) :
    MempoolM (Except InsertError Unit) := do
  let store ← Prog.read
  match (TxFormatter.newForInMempool store.network utxoMap).fmt none tx txId with
  | .error reason => .halt (.panicked reason)
  | .ok formatter => executeQueries (mempoolQueries formatter)

/-- The points whose outputs `insert` asks for. -/
def hashIdOutPoints (tx : Transaction) : List HashIdOutPoint :=
  tx.input.map fun input => .ofOutPoint input.previousOutput

def insert (txId : Txid) (data : Option Transaction) : MempoolM (Except InsertError Unit) :=
  match data with
  | none => pure (.ok ())
  | some tx => do
      match ← fetchOutputs (fmtFetchOutputsSql (hashIdOutPoints tx)) ∅ with
      | .error _ => pure (.ok ())
      | .ok utxoMap =>
          if utxoMap.keys.length ≠ tx.input.length then pure (.error (.missingInputs txId))
          else insertTxData txId tx utxoMap

/-- One listed transaction; an error is printed and nothing else. -/
def visit (txId : Txid) : MempoolM Unit := do
  if ← perform (.doneContains txId) then pure ()
  else do
    let tx ← perform (.getById txId)
    match ← insert txId tx with
    | .error _ => pure ()
    | .ok () => perform (.doneInsert txId)

def visitAll : List Txid → MempoolM Unit
  | [] => pure ()
  | txId :: txIds => do
      visit txId
      visitAll txIds

/-- One turn of the loop of `run`. -/
def scan : MempoolM Unit := do
  let len ← perform .doneLen
  if len > 500000 then perform .doneClear
  visitAll (← perform .getRawMempool)

/-! ## Runs -/

inductive Call where
  | start (network : Network)
  | scan
  deriving DecidableEq

def enter : Call → World → World
  | .start _, w => { w with process := .start }
  | .scan, w => w

def body : Call → MempoolM Unit
  | .start network => new network
  | .scan => scan

def system : System Act MempoolStore Halt World Event Call where
  exec := exec
  interfere := World.step
  enter := enter
  body := body

/-- No process yet, an empty database. -/
def initial : Config Act MempoolStore Halt World :=
  ⟨⟨.bitcoin⟩, ⟨.empty, 0, [], fun _ => none, .start⟩, .halt .stopped⟩

end BitcoinIndexer.Mempool
