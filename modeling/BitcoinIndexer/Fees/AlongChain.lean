import BitcoinIndexer.Chain.Guarantees
import BitcoinIndexer.Fees.Independence

/-!
# The fees of a chain

Runs in which a valid chain is handed over in batches, with the workers stopped and
started again at any point between two of them and any thread failing at any moment.
-/

namespace BitcoinIndexer.Fees

open BitcoinIndexer.Types
open BitcoinIndexer.Tables
open BitcoinIndexer.Formatter
open BitcoinIndexer.UtxoCache
open BitcoinIndexer.Worker
open BitcoinIndexer.Store
open BitcoinIndexer.Pipeline
open BitcoinIndexer.PipelineOrder
open BitcoinIndexer.Guarantees
open BitcoinIndexer.Interleaving

/-- The batches continue `base` along `chain`. -/
def batching (chain base : List BlockData) :
    Discipline Act IndexerStore Halt World WorkerEvent Operation :=
  operated fun w blocks => base ++ blocksOf w.handed ++ blocks <+: chain

/-- What is known of the fees in every state. -/
def Known (network : Network) (chain base : List BlockData) (w : World) : Prop :=
  ∃ extra next, PipeInv extra w ∧ Priced network chain base next w

variable {network : Network} {chain base : List BlockData} (hvalid : Valid network chain)

theorem priced_fresh {blocks next : List BlockData} {w : World} (hvalid : Valid network chain)
    (h : Priced network chain base (blocks ++ next) w) :
    (w.handed.flatMap Batch.ids ++ blocks.map (·.id)).Nodup := by
  have hids := hvalid.distinct
  obtain ⟨rest, hrest⟩ := h.upcoming
  have hhanded : w.handed.flatMap Batch.ids = (blocksOf w.handed).map (·.id) := by
    rw [blocksOf, List.map_flatMap]
    rfl
  rw [hhanded, ← List.map_append]
  apply List.Nodup.sublist _ hids
  apply List.Sublist.map
  rw [← hrest]
  have hmiddle : base ++ blocksOf w.handed ++ (blocks ++ next) ++ rest =
      base ++ ((blocksOf w.handed ++ blocks) ++ (next ++ rest)) := by simp
  rw [hmiddle]
  exact (List.sublist_append_left _ _).trans (List.sublist_append_right _ _)

/-- Workers that have just been started: nothing is cached and all is committed. -/
theorem serving_new {done : List BlockData} (mode : Mode) :
    Serving network chain done done (.new mode network) where
  cache := fun _ => ⟨done, [], by simp [pending, Workers.new], List.Subset.refl _,
    cached_default network chain⟩
  fetching := by simp [Workers.new]
  utxoSend := by simp [Workers.new]
  received := by simp [Workers.new]
  queryFmtSend := by simp [Workers.new]
  writerReceived := by simp [Workers.new]
  calm := ⟨by simp [Workers.new], by simp [Workers.new], by simp [Workers.new]⟩
  captured := rfl

theorem Priced.handOver {batch : Batch} {next : List BlockData} {w : World} {p : Workers}
    (h : Priced network chain base (batch.blocks ++ next) w) (hworkers : w.workers = some p)
    (hrecv : p.utxo = .recv) :
    Priced network chain base next (Pipeline.handOver batch p w) where
  upcoming := by
    have hupcoming := h.upcoming
    simpa [Pipeline.handOver, blocksOf] using hupcoming
  stored := h.stored
  serving := fun q hq => by
    have hserving := h.serving p hworkers
    obtain rfl := Option.some.inj hq
    obtain ⟨old, gen, hhanded, hold, hcached⟩ := hserving.cache (by simp [hrecv])
    refine ⟨fun _ => ⟨old, gen, ?_, hold, hcached⟩, by simp, by simp, hserving.received,
      hserving.queryFmtSend, hserving.writerReceived,
      ⟨by simp, by simp, hserving.calm.queryFmt⟩, hserving.captured⟩
    replace hhanded : base ++ blocksOf w.handed = old ++ gen := by
      simpa [hrecv, pending] using hhanded
    change base ++ blocksOf (w.handed ++ [batch]) = old ++ gen ++ batch.blocks
    rw [blocksOf_append, ← List.append_assoc, hhanded]
    simp [blocksOf]

theorem Priced.closeTx {next : List BlockData} {w : World} {p : Workers}
    (h : Priced network chain base next w) (hworkers : w.workers = some p) :
    Priced network chain base next { w with workers := some { p with txOpen := false } } :=
  h.threads rfl rfl rfl rfl fun q hq => by
    have hserving := h.serving p hworkers
    obtain rfl := Option.some.inj hq
    exact ⟨hserving.cache, hserving.fetching, hserving.utxoSend, hserving.received,
      hserving.queryFmtSend, hserving.writerReceived,
      ⟨hserving.calm.utxoFormat, hserving.calm.fetchedCount, hserving.calm.queryFmt⟩,
      hserving.captured⟩

def priceView (base : List BlockData) : View (batching chain base) (Known network chain base)
    fun _ _ => Known network chain base where
  holds := Priced network chain base
  spawns := fun _ captured => captured = network
  inv := fun hinv h => ⟨_, _, hinv, h⟩
  died := fun hinv h _ _ => ⟨_, _, hinv, h⟩
  step := fun _ hinv h => h.step hvalid hinv _
  lock := fun h => ⟨h.upcoming, h.stored, h.serving⟩
  fresh := fun _ h => priced_fresh hvalid h
  handOver := fun _ h hworkers hrecv => h.handOver hworkers hrecv
  closeTx := fun _ h hworkers => h.closeTx hworkers
  join := fun _ h _ _ _ _ => h.threads rfl rfl rfl rfl fun _ hq => by cases hq
  spawn := fun hinv h hworkers hspawns => h.threads rfl rfl rfl rfl fun q hq => by
    obtain rfl := Option.some.inj hq
    rw [hspawns, (hinv.settled hworkers).1]
    exact serving_new _

theorem safe_batching {operation : Operation} {c : Config Act IndexerStore Halt World}
    (hcall : (batching chain base).call operation c)
    (hsafe : SafeConfig driver (batching chain base) (Known network chain base)
      (fun _ _ => Known network chain base)
      (Returned (priceView hvalid base) network) c) :
    Safe driver (batching chain base) (Known network chain base)
      (fun _ _ => Known network chain base)
      (fun _ => Returned (priceView hvalid base) network)
      (operationBody operation) c.locals c.shared := by
  have hreturned : Returned (priceView hvalid base) network c.locals c.shared := by
    rw [SafeConfig, hcall.1] at hsafe
    exact hsafe
  obtain ⟨hnetwork, hrests⟩ := hreturned
  have hpost : ∀ (value : Unit) (locals : IndexerStore) (w : World),
      Returned (priceView hvalid base) c.locals.network locals w →
        Returned (priceView hvalid base) network locals w :=
    fun _ _ _ h => ⟨h.1.trans hnetwork, h.2⟩
  cases operation with
  | flushBatch blocks =>
      obtain ⟨-, hrun, hupcoming⟩ := hcall
      have hpriced : Priced network chain base [] c.shared := hrests.1.2
      exact Safe.mono hpost
        (safe_flushing ⟨hrests.1.1, hupcoming, hpriced.stored, hpriced.serving⟩ hrun)
  | stopWorkers =>
      exact Safe.mono (fun value locals w h => hpost value locals w h.1) (safe_stopping hrests)
  | startWorkers => exact Safe.mono hpost (safe_starting hrests hcall.2 hnetwork)

theorem safe_along (store : IndexerStore) (hnetwork : store.network = network) (db : Db)
    (hstored : Stored network chain base db) (hbase : base <+: chain)
    (labels : List (Label WorkerEvent Operation))
    (hfollows : (batching chain base).follows driver labels (ready store db)) :
    SafeConfig driver (batching chain base) (Known network chain base)
      (fun _ _ => Known network chain base)
      (Returned (priceView hvalid base) network)
      (driver.run labels (ready store db)) := by
  have hstep : ∀ (event : WorkerEvent) (w : World), Known network chain base w →
      Known network chain base (w.step event) := by
    intro event w ⟨extra, next, hinv, h⟩
    exact ⟨extra, next, hinv.step event, h.step hvalid hinv event⟩
  apply SafeConfig.run (fun _ event w _ h => ⟨h.1, rests_step trivial h.2⟩)
    (fun _ _ event w _ h => hstep event w h) labels (ready store db)
    (fun _ _ _ hcall hsafe => safe_batching hvalid hcall hsafe) hfollows
  have hinv : PipeInv [] (World.over db) := by
    constructor <;> simp [World.over, live, held, acking, unacked, flight]
  have hpriced : Priced network chain base [] (World.over db) :=
    ⟨by simpa [World.over, blocksOf] using hbase, by simpa [World.over, blocksOf] using hstored,
      by simp [World.over]⟩
  exact ⟨hnetwork, ⟨hinv, hpriced⟩, .inr rfl⟩

/-- What holds of the maps, the queries under way and the rows of a chain, whatever the
batches: every spent output has its value, what is fetched is stored, and the fees are
those of the chain. -/
structure RightFees (network : Network) (chain base : List BlockData) (w : World) : Prop where
  returned : ∀ p, w.workers = some p → ∀ msg, p.utxo = .send msg ∨ p.queryFmt = .received msg →
    ∀ point ∈ spentOutputs msg.batch.blocks,
      msg.inputsUtxoMap.lookup point = some ⟨valueOf (txsOf network chain) point⟩
  missing : ∀ p, w.workers = some p → ∀ batch fetch, p.utxo = .fetching batch fetch →
    ∀ point ∈ fetch.missing, ∃ row ∈ w.db.output,
      rowPoint row = point ∧ row.value = valueOf (txsOf network chain) point
  calm : ∀ p, w.workers = some p → Calm p
  written : ∀ tx ∈ txsOf network (base ++ blocksOf w.committed), ∃ row ∈ w.db.tx,
    row.hashId = hashToHashId tx.1
  fees : ∀ row ∈ w.db.tx, ∀ tx ∈ txsOf network chain, row.hashId = hashToHashId tx.1 →
    row.fee = feeIn (txsOf network chain) tx.2

theorem Priced.committed_sub {next : List BlockData} {w : World}
    (h : Priced network chain base next w) (hcommitted : w.committed <+: w.handed) :
    base ++ blocksOf w.committed ⊆ chain := by
  obtain ⟨uncommitted, hsplit⟩ := hcommitted
  obtain ⟨rest, hrest⟩ := h.upcoming
  intro block hmem
  rw [← hrest, ← hsplit, blocksOf_append]
  simp only [List.mem_append] at hmem ⊢
  tauto

theorem Known.rightFees {w : World} (h : Known network chain base w) :
    RightFees network chain base w := by
  obtain ⟨extra, next, hinv, hpriced⟩ := h
  have hsub : base ++ blocksOf w.committed ⊆ chain :=
    hpriced.committed_sub hinv.committed_initial
  refine ⟨?_, ?_, fun p hworkers => (hpriced.serving p hworkers).calm, hpriced.stored.txs,
    hpriced.stored.fees⟩
  · intro p hworkers msg hmsg point hpoint
    rw [spentOutputs_eq network] at hpoint
    obtain hsend | hreceived := hmsg
    · exact (hpriced.serving p hworkers).utxoSend msg hsend point hpoint
    · exact (hpriced.serving p hworkers).received msg hreceived point hpoint
  · intro p hworkers batch fetch hfetching point hpoint
    have hcreated := ((hpriced.serving p hworkers).fetching batch fetch hfetching).stored point hpoint
    obtain ⟨row, hrow, rfl⟩ := hpriced.stored.outputs point hcreated
    exact ⟨row, hrow, rfl, hpriced.stored.values row hrow (createdPoints_of_append hcreated hsub)⟩

/-- However a valid chain is divided into batches, wherever the workers are stopped and
started again, and whatever the threads have done: fees and values are right. -/
theorem fees_independent_of_batching (network : Network) (chain base : List BlockData)
    (hvalid : Valid network chain) (hbase : base <+: chain) (store : IndexerStore)
    (hnetwork : store.network = network) (db : Db) (hstored : Stored network chain base db)
    (labels : List (Label WorkerEvent Operation))
    (hfollows : (batching chain base).follows driver labels (ready store db)) :
    RightFees network chain base (driver.run labels (ready store db)).shared :=
  Known.rightFees ((safe_along hvalid store hnetwork db hstored hbase labels hfollows).always
    (I := Known network chain base) (fun _ _ h => ⟨_, _, h.2.1.1, h.2.1.2⟩) (fun _ _ _ h => h))

/-! ## An output spent after a restart -/

def operating (operations : List Operation) : List (Label WorkerEvent Operation) :=
  operations.flatMap fun operation => .call operation :: batchRounds 12

def payingTx (txid : UInt8) (previousOutput : OutPoint) (values : List ℕ) : Transaction :=
  ⟨hashStarting txid, 4, 0, [⟨previousOutput, []⟩], values.map fun value => ⟨value, ⟨none⟩⟩⟩

def mintingTx (txid : UInt8) (value : ℕ) : Transaction :=
  payingTx txid ⟨hashStarting 0, 2 ^ 32 - 1⟩ [value]

/-- The second block spends the output of the first one, and one of its own. -/
def spendingChain : List BlockData :=
  [blockWith 0 1 0 [mintingTx 11 50],
    blockWith 1 2 1 [mintingTx 12 50, payingTx 13 ⟨hashStarting 11, 0⟩ [30, 15],
      payingTx 14 ⟨hashStarting 13, 1⟩ [12]]]

theorem spendingChain_valid : Valid .bitcoin spendingChain where
  linked := ⟨⟨rfl, by decide⟩, ⟨rfl, fun _ => rfl⟩, trivial⟩
  distinct := by decide +kernel
  unique := by decide +kernel
  earlier := by decide +kernel
  once := by decide +kernel
  funded := by decide +kernel

/-- The output is spent by workers that did not see it created. -/
def overRestart : List Operation :=
  [.startWorkers, .flushBatch (spendingChain.take 1), .stopWorkers, .startWorkers,
    .flushBatch (spendingChain.drop 1)]

theorem fees_right_over_restart :
    let w := (driver.run (operating overRestart) (ready (.opened .freshBulk .bitcoin 0 0) .empty)).shared
    w.db.tx.map (·.fee) = [0, 0, 5, 3] ∧ RightFees .bitcoin spendingChain [] w := by
  have hfollows : (batching spendingChain []).follows driver (operating overRestart)
      (ready (.opened .freshBulk .bitcoin 0 0) .empty) :=
    follows_of_checkRun (operated_of_check _) (operating overRestart) _ (by decide +kernel)
  exact ⟨by decide +kernel, fees_independent_of_batching .bitcoin spendingChain []
    spendingChain_valid (List.nil_prefix) _ rfl .empty (stored_empty .bitcoin spendingChain)
    (operating overRestart) hfollows⟩

end BitcoinIndexer.Fees
