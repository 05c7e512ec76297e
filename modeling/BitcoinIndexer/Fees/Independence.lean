import BitcoinIndexer.Fees.Batches

/-!
# Fees along a run

The invariant of the three threads: the cache belongs to the batches this generation has
processed, every message carries the right map or queries written with it, and what is
committed is stored with the fees of the chain.
-/

namespace BitcoinIndexer.Fees

open BitcoinIndexer.Types
open BitcoinIndexer.Tables
open BitcoinIndexer.Formatter
open BitcoinIndexer.UtxoCache
open BitcoinIndexer.StoredRows
open BitcoinIndexer.Execution
open BitcoinIndexer.Worker
open BitcoinIndexer.Store
open BitcoinIndexer.Pipeline
open BitcoinIndexer.PipelineOrder
open BitcoinIndexer.Interleaving

/-- Handed over and not yet taken in by the cache. -/
def pending : UtxoThread → List BlockData
  | .received batch => batch.blocks
  | _ => []

/-- The queries of a message were formatted with the right map. -/
def Written (network : Network) (chain : List BlockData) (p : Workers) (msg : WriterMsg) : Prop :=
  ∃ inputsUtxoMap,
    RightFor (txsOf network chain) (spent (txsOf network msg.batch.blocks)) inputsUtxoMap ∧
      fmtInsertBlockdataSql msg.batch.blocks inputsUtxoMap
        (txIdMapFromBlocks msg.batch.blocks network) p.mode network = .ok msg.queries

/-- No thread has met a txid, an output or a fee that it did not expect. -/
structure Calm (p : Workers) : Prop where
  utxoFormat : ∀ panic, p.utxo ≠ .exited (.panicked (.format panic))
  fetchedCount : p.utxo ≠ .exited (.panicked .fetchedCount)
  queryFmt : ∀ panic, p.queryFmt ≠ .exited (.panicked (.format panic))

structure Serving (network : Network) (chain handed done : List BlockData) (p : Workers) :
    Prop where
  cache : p.utxo.exit = none → ∃ old gen, handed = old ++ gen ++ pending p.utxo ∧ old ⊆ done ∧
    Cached network chain gen p.utxoSetCache
  fetching : ∀ batch fetch, p.utxo = .fetching batch fetch →
    Fetched network chain done batch fetch
  utxoSend : ∀ msg, p.utxo = .send msg →
    RightFor (txsOf network chain) (spent (txsOf network msg.batch.blocks)) msg.inputsUtxoMap
  received : ∀ msg, p.queryFmt = .received msg →
    RightFor (txsOf network chain) (spent (txsOf network msg.batch.blocks)) msg.inputsUtxoMap
  queryFmtSend : ∀ msg, p.queryFmt = .send msg → Written network chain p msg
  writerReceived : ∀ msg, p.writer = .received msg → Written network chain p msg
  calm : Calm p
  captured : p.network = network

/-- `base` is stored when the run begins; the batches continue it along `chain`. -/
structure Priced (network : Network) (chain base next : List BlockData) (w : World) : Prop where
  upcoming : base ++ blocksOf w.handed ++ next <+: chain
  stored : Stored network chain (base ++ blocksOf w.committed) w.db
  serving : ∀ p, w.workers = some p →
    Serving network chain (base ++ blocksOf w.handed) (base ++ blocksOf w.committed) p

variable {network : Network} {chain base next handed done : List BlockData}
variable {p : Workers} {w : World} {extra : List BlockHash}

theorem Serving.mono (h : Serving network chain handed done p) {more : List BlockData}
    (hsub : done ⊆ more) : Serving network chain handed more p where
  cache := fun hlive => by
    obtain ⟨old, gen, hhanded, hold, hcached⟩ := h.cache hlive
    exact ⟨old, gen, hhanded, List.Subset.trans hold hsub, hcached⟩
  fetching := fun batch fetch hfetching => (h.fetching batch fetch hfetching).mono hsub
  utxoSend := h.utxoSend
  received := h.received
  queryFmtSend := h.queryFmtSend
  writerReceived := h.writerReceived
  calm := h.calm
  captured := h.captured

/-! ## Why a thread ends -/

/-- The UTXO thread panics only over what it has just looked at. -/
theorem utxoStep_panicked {fails : Bool} {db : Db} {panic : WorkerPanic}
    (hpanicked : (p.utxoStep fails db).utxo = .exited (.panicked panic)) :
    p.utxo = .exited (.panicked panic) ∨ panic = .sendFailed ∨
      (∃ batch cause, p.utxo = .received batch ∧ panic = .format cause ∧
        p.utxoSetCache.processLocal batch.blocks (txIdMapFromBlocks batch.blocks p.network) =
          .error cause) ∨
      ∃ batch fetch, p.utxo = .fetching batch fetch ∧ panic = .fetchedCount ∧
        fetch.queries = [] ∧ fetchedAll fetch.missing fetch.out = false := by
  cases hutxo : p.utxo with
  | exited exit => exact .inl (by simpa [Workers.utxoStep, hutxo] using hpanicked)
  | recv =>
      cases fails <;> simp only [Workers.utxoStep, hutxo, Workers.exitUtxo] at hpanicked
      · split at hpanicked <;> simp_all
      · simp at hpanicked
  | received batch =>
      cases fails with
      | true => simp [Workers.utxoStep, hutxo, Workers.exitUtxo] at hpanicked
      | false =>
          simp only [Workers.utxoStep, hutxo, Workers.startProcessBlocks] at hpanicked
          cases hlocal : p.utxoSetCache.processLocal batch.blocks
              (txIdMapFromBlocks batch.blocks p.network) with
          | ok consumed => simp [hlocal] at hpanicked
          | error cause =>
              simp only [hlocal, Workers.exitUtxo, UtxoThread.exited.injEq,
                Exit.panicked.injEq] at hpanicked
              exact .inr (.inr (.inl ⟨batch, cause, rfl, hpanicked.symm, hlocal⟩))
  | fetching batch fetch =>
      cases fails with
      | true => simp [Workers.utxoStep, hutxo, Workers.exitUtxo] at hpanicked
      | false =>
          simp only [Workers.utxoStep, hutxo, Workers.fetchStep] at hpanicked
          cases hqueries : fetch.queries with
          | cons chunk queries => simp [hqueries] at hpanicked
          | nil =>
              cases hall : fetchedAll fetch.missing fetch.out with
              | true => simp [hqueries, hall] at hpanicked
              | false =>
                  simp only [hqueries, hall, Bool.false_eq_true, if_false, Workers.exitUtxo,
                    UtxoThread.exited.injEq, Exit.panicked.injEq] at hpanicked
                  exact .inr (.inr (.inr ⟨batch, fetch, rfl, hpanicked.symm, hqueries, hall⟩))
  | send msg =>
      cases fails <;> simp only [Workers.utxoStep, hutxo, Workers.exitUtxo] at hpanicked
      · split at hpanicked
        · simp only [UtxoThread.exited.injEq, Exit.panicked.injEq] at hpanicked
          exact .inr (.inl hpanicked.symm)
        · simp [hutxo] at hpanicked
      · simp at hpanicked

theorem queryFmtStep_panicked {fails : Bool} {cause : FormatPanic}
    (hpanicked : (p.queryFmtStep fails).queryFmt = .exited (.panicked (.format cause))) :
    p.queryFmt = .exited (.panicked (.format cause)) ∨
      ∃ msg, p.queryFmt = .received msg ∧ fmtInsertBlockdataSql msg.batch.blocks
        msg.inputsUtxoMap msg.txIds p.mode p.network = .error cause := by
  cases hqueryFmt : p.queryFmt with
  | exited exit => exact .inl (by simpa [Workers.queryFmtStep, hqueryFmt] using hpanicked)
  | recv =>
      cases fails <;> simp only [Workers.queryFmtStep, hqueryFmt, Workers.exitQueryFmt] at hpanicked
      · split at hpanicked <;> simp_all
      · simp at hpanicked
  | send msg =>
      cases fails <;> simp only [Workers.queryFmtStep, hqueryFmt, Workers.exitQueryFmt] at hpanicked
      · split at hpanicked <;> simp_all
      · simp at hpanicked
  | received msg =>
      cases fails with
      | true => simp [Workers.queryFmtStep, hqueryFmt, Workers.exitQueryFmt] at hpanicked
      | false =>
          simp only [Workers.queryFmtStep, hqueryFmt, Workers.formatStep] at hpanicked
          cases hqueries : fmtInsertBlockdataSql msg.batch.blocks msg.inputsUtxoMap msg.txIds
              p.mode p.network with
          | ok queries =>
              cases hlast : msg.batch.blocks.getLast? <;>
                simp [hqueries, hlast, Workers.exitQueryFmt] at hpanicked
          | error found =>
              simp only [hqueries, Workers.exitQueryFmt, QueryFmtThread.exited.injEq,
                Exit.panicked.injEq, WorkerPanic.format.injEq] at hpanicked
              exact .inr ⟨msg, rfl, by rw [hqueries, hpanicked]⟩

theorem utxoStep_queryFmt (p : Workers) (fails : Bool) (db : Db) :
    (p.utxoStep fails db).queryFmt = p.queryFmt := by
  cases hutxo : p.utxo <;> cases fails <;>
    simp only [Workers.utxoStep, hutxo, Workers.exitUtxo, Workers.startProcessBlocks,
      Workers.fetchStep]
  all_goals repeat' split
  all_goals rfl

theorem queryFmtStep_utxo (p : Workers) (fails : Bool) :
    (p.queryFmtStep fails).utxo = p.utxo ∨ (p.queryFmtStep fails).utxo = .recv := by
  cases hqueryFmt : p.queryFmt <;> cases fails <;>
    simp only [Workers.queryFmtStep, hqueryFmt, Workers.exitQueryFmt, Workers.formatStep]
  all_goals repeat' split
  all_goals simp_all

/-! ## What a step keeps -/

theorem Priced.chain_eq (h : Priced network chain base next w) :
    ∃ rest, chain = base ++ blocksOf w.handed ++ rest := by
  obtain ⟨rest, hrest⟩ := h.upcoming
  exact ⟨next ++ rest, by rw [← hrest]; simp⟩

theorem Priced.handed_sublist (h : Priced network chain base next w) {batch : Batch}
    (hmem : batch ∈ w.handed) : batch.blocks.Sublist chain := by
  obtain ⟨rest, hrest⟩ := h.chain_eq
  have hbatch : batch.blocks.Sublist (blocksOf w.handed) := by
    rw [blocksOf, List.flatMap_def]
    exact List.sublist_flatten_of_mem (List.mem_map_of_mem hmem)
  rw [hrest]
  exact (hbatch.trans (List.sublist_append_right _ _)).trans (List.sublist_append_left _ _)

theorem Priced.held_sublist (h : Priced network chain base next w) (hinv : PipeInv extra w)
    (hworkers : w.workers = some p) {batch : Batch} (hmem : batch ∈ heldBy p) :
    batch.blocks.Sublist chain := by
  apply h.handed_sublist
  apply hinv.line.subset
  rw [held_some hworkers]
  exact List.mem_append_right _ hmem

/-- Before its first query `process_blocks` finds a txid for every output. -/
theorem Priced.processLocal (h : Priced network chain base next w) (hvalid : Valid network chain)
    (hworkers : w.workers = some p) {batch : Batch} (hreceived : p.utxo = .received batch) :
    ∃ consumed gen old, p.utxoSetCache.processLocal batch.blocks
        (txIdMapFromBlocks batch.blocks network) = .ok consumed ∧
      base ++ blocksOf w.handed = old ++ (gen ++ batch.blocks) ∧
      old ⊆ base ++ blocksOf w.committed ∧
      Cached network chain (gen ++ batch.blocks) consumed.cache ∧
      Fetched network chain (base ++ blocksOf w.committed) batch
        ⟨txIdMapFromBlocks batch.blocks network, consumed.found, consumed.missing,
          fmtFetchOutputsSql consumed.missing, ∅⟩ := by
  obtain ⟨old, gen, hhanded, hold, hcached⟩ :=
    (h.serving p hworkers).cache (by rw [hreceived]; rfl)
  rw [hreceived, pending] at hhanded
  obtain ⟨rest, hrest⟩ := h.chain_eq
  rw [hhanded] at hrest
  obtain ⟨consumed, hlocal, hcache, hfetched⟩ := hcached.processLocal hvalid hrest hold
  exact ⟨consumed, gen, old, hlocal, by rw [hhanded, List.append_assoc], hold, hcache, hfetched⟩

/-- With the right map the formatter writes its queries. -/
theorem Priced.format (h : Priced network chain base next w) (hvalid : Valid network chain)
    (hinv : PipeInv extra w) (hworkers : w.workers = some p) {msg : UtxoMsg}
    (hreceived : p.queryFmt = .received msg) :
    ∃ queries, fmtInsertBlockdataSql msg.batch.blocks msg.inputsUtxoMap msg.txIds p.mode
      p.network = .ok queries := by
  have hserving := h.serving p hworkers
  have hheld : msg.batch ∈ heldBy p := by simp [heldBy, hreceived]
  have hsublist := h.held_sublist hinv hworkers hheld
  rw [(hinv.formed p hworkers).queryFmtReceived msg hreceived]
  apply fmtInsertBlockdataSql_ok (hvalid.heights_of_sub hsublist)
  intro block hblock tx htx
  exact ⟨_, hvalid.feeOf_eq hsublist.subset (hserving.received msg hreceived)
    (List.mem_flatMap.2 ⟨block, hblock, List.mem_map_of_mem htx⟩)⟩

theorem Priced.calm_step (h : Priced network chain base next w) (hvalid : Valid network chain)
    (hinv : PipeInv extra w) (hworkers : w.workers = some p) (event : WorkerEvent) :
    ∀ q, (w.step event).workers = some q → Calm q := by
  intro q hq
  have hserving := h.serving p hworkers
  obtain ⟨hutxoFormat, hfetchedCount, hqueryFmt⟩ := hserving.calm
  cases event with
  | utxo fails =>
      have hstep : p.utxoStep fails w.db = q := by simpa [World.step, hworkers] using hq
      rw [← hstep]
      constructor
      case queryFmt =>
        intro panic
        rw [utxoStep_queryFmt]
        exact hqueryFmt panic
      case utxoFormat =>
        intro panic hpanicked
        obtain hold | hsend | ⟨batch, cause, hutxo, -, hlocal⟩ | ⟨_, _, _, hcause, _⟩ :=
          utxoStep_panicked hpanicked
        · exact hutxoFormat panic hold
        · cases hsend
        · obtain ⟨consumed, gen, old, hok, -⟩ := h.processLocal hvalid hworkers hutxo
          rw [hserving.captured, hok] at hlocal
          cases hlocal
        · cases hcause
      case fetchedCount =>
        intro hpanicked
        obtain hold | hsend | ⟨_, _, _, hcause, _⟩ | ⟨batch, fetch, hutxo, -, hqueries, hall⟩ :=
          utxoStep_panicked hpanicked
        · exact hfetchedCount hold
        · cases hsend
        · cases hcause
        · have hcomplete := (hserving.fetching batch fetch hutxo).complete hqueries
          rw [hcomplete.1] at hall
          cases hall
  | queryFmt fails =>
      have hstep : p.queryFmtStep fails = q := by simpa [World.step, hworkers] using hq
      rw [← hstep]
      have hutxo := queryFmtStep_utxo p fails
      constructor
      case queryFmt =>
        intro panic hpanicked
        obtain hold | ⟨msg, hreceived, herror⟩ := queryFmtStep_panicked hpanicked
        · exact hqueryFmt panic hold
        · obtain ⟨queries, hok⟩ := h.format hvalid hinv hworkers hreceived
          rw [hok] at herror
          cases herror
      case utxoFormat =>
        intro panic
        obtain hsame | hrecv := hutxo
        · rw [hsame]
          exact hutxoFormat panic
        · simp [hrecv]
      case fetchedCount =>
        obtain hsame | hrecv := hutxo
        · rw [hsame]
          exact hfetchedCount
        · simp [hrecv]
  | writer failAt =>
      have htransition := transition_step hworkers (.writer failAt)
      generalize w.step (.writer failAt) = after at htransition hq
      cases htransition with
      | stay =>
          rw [hworkers, Option.some.injEq] at hq
          rw [← hq]
          exact hserving.calm
      | queriesSent msg hsend hrecv =>
          simp only [Option.some.injEq] at hq
          rw [← hq]
          exact ⟨hutxoFormat, hfetchedCount, by simp⟩
      | _ =>
          simp only [World.setWriter, World.publish, Option.some.injEq] at hq
          rw [← hq]
          exact ⟨hutxoFormat, hfetchedCount, hqueryFmt⟩

/-- A step that commits nothing keeps everything but what it does to the threads. -/
theorem Priced.threads (h : Priced network chain base next w) {after : World}
    (hhanded : after.handed = w.handed) (hcommitted : after.committed = w.committed)
    (houtput : after.db.output = w.db.output) (htx : after.db.tx = w.db.tx)
    (hserving : ∀ q, after.workers = some q →
      Serving network chain (base ++ blocksOf w.handed) (base ++ blocksOf w.committed) q) :
    Priced network chain base next after where
  upcoming := by
    rw [hhanded]
    exact h.upcoming
  stored := by
    obtain ⟨houtputs, hvalues, htxs, hfees⟩ := h.stored
    rw [hcommitted]
    constructor
    · rwa [houtput]
    · rwa [houtput]
    · rwa [htx]
    · rwa [htx]
  serving := by
    rw [hhanded, hcommitted]
    exact hserving

/-- The writer's own state does not matter to the other threads. -/
theorem Serving.setWriter (h : Serving network chain handed done p) {writer : WriterThread}
    (hreceived : ∀ msg, writer = .received msg → Written network chain p msg) :
    Serving network chain handed done { p with writer := writer } :=
  ⟨h.cache, h.fetching, h.utxoSend, h.received, h.queryFmtSend, hreceived,
    ⟨h.calm.utxoFormat, h.calm.fetchedCount, h.calm.queryFmt⟩, h.captured⟩

theorem Priced.step (h : Priced network chain base next w) (hvalid : Valid network chain)
    (hinv : PipeInv extra w) (event : WorkerEvent) :
    Priced network chain base next (w.step event) := by
  cases hworkers : w.workers with
  | none => rwa [step_none hworkers]
  | some p =>
      have hserving := h.serving p hworkers
      have hcalm := h.calm_step hvalid hinv hworkers event
      have htransition := transition_step hworkers event
      generalize w.step event = after at htransition hcalm
      cases htransition with
      | stay => exact h
      | utxoDone | utxoDied =>
          refine h.threads rfl rfl rfl rfl fun q hq => ?_
          have hq' := hcalm q hq
          obtain rfl := Option.some.inj hq
          exact ⟨by simp, by simp, by simp, hserving.received, hserving.queryFmtSend,
            hserving.writerReceived, hq', hserving.captured⟩
      | blocksProcessed batch consumed hreceived hlocal =>
          refine h.threads rfl rfl rfl rfl fun q hq => ?_
          have hq' := hcalm q hq
          obtain rfl := Option.some.inj hq
          obtain ⟨consumed', gen, old, hok, hhanded, hold, hcache, hfetched⟩ :=
            h.processLocal hvalid hworkers hreceived
          rw [hserving.captured, hok, Except.ok.injEq] at hlocal
          subst hlocal
          refine ⟨fun _ => ⟨old, gen ++ batch.blocks, by simp [pending, hhanded], hold, hcache⟩,
            fun other fetch heq => ?_, by simp, hserving.received, hserving.queryFmtSend,
            hserving.writerReceived, hq', hserving.captured⟩
          obtain ⟨rfl, rfl⟩ := UtxoThread.fetching.inj heq
          rw [hserving.captured]
          exact hfetched
      | chunkFetched batch fetch chunk queries hfetching hqueries =>
          refine h.threads rfl rfl rfl rfl fun q hq => ?_
          have hq' := hcalm q hq
          obtain rfl := Option.some.inj hq
          obtain ⟨old, gen, hhanded, hold, hcached⟩ := hserving.cache (by simp [hfetching])
          refine ⟨fun _ => ⟨old, gen, by simpa [pending, hfetching] using hhanded, hold, hcached⟩,
            fun other fetch' heq => ?_, by simp, hserving.received, hserving.queryFmtSend,
            hserving.writerReceived, hq', hserving.captured⟩
          obtain ⟨rfl, rfl⟩ := UtxoThread.fetching.inj heq
          apply (hserving.fetching batch fetch hfetching).chunk _ h.stored hqueries
          have hcommitted : base ++ blocksOf w.committed <+: base ++ blocksOf w.handed := by
            obtain ⟨rest, hrest⟩ := hinv.committed_initial
            exact ⟨blocksOf rest, by rw [← hrest]; simp⟩
          exact (hcommitted.trans ((List.prefix_append _ _).trans h.upcoming)).subset
      | fetched batch fetch hfetching hqueries hall =>
          refine h.threads rfl rfl rfl rfl fun q hq => ?_
          have hq' := hcalm q hq
          obtain rfl := Option.some.inj hq
          obtain ⟨old, gen, hhanded, hold, hcached⟩ := hserving.cache (by simp [hfetching])
          refine ⟨fun _ => ⟨old, gen, by simpa [pending, hfetching] using hhanded, hold, hcached⟩,
            by simp, fun msg heq => ?_, hserving.received, hserving.queryFmtSend,
            hserving.writerReceived, hq', hserving.captured⟩
          obtain rfl := UtxoThread.send.inj heq
          exact ((hserving.fetching batch fetch hfetching).complete hqueries).2
      | utxoSent msg hsend hrecv =>
          refine h.threads rfl rfl rfl rfl fun q hq => ?_
          have hq' := hcalm q hq
          obtain rfl := Option.some.inj hq
          obtain ⟨old, gen, hhanded, hold, hcached⟩ := hserving.cache (by simp [hsend])
          refine ⟨fun _ => ⟨old, gen, by simpa [pending, hsend] using hhanded, hold, hcached⟩,
            by simp, by simp, fun received heq => ?_, by simp, hserving.writerReceived, hq',
            hserving.captured⟩
          obtain rfl := QueryFmtThread.received.inj heq
          exact hserving.utxoSend msg hsend
      | formatted msg queries height hreceived hqueries =>
          refine h.threads rfl rfl rfl rfl fun q hq => ?_
          have hq' := hcalm q hq
          obtain rfl := Option.some.inj hq
          refine ⟨hserving.cache, hserving.fetching, hserving.utxoSend, by simp,
            fun written heq => ?_, hserving.writerReceived, hq', hserving.captured⟩
          obtain rfl := QueryFmtThread.send.inj heq
          refine ⟨msg.inputsUtxoMap, hserving.received msg hreceived, ?_⟩
          rw [(hinv.formed p hworkers).queryFmtReceived msg hreceived, hserving.captured]
            at hqueries
          exact hqueries
      | queryFmtDone | queryFmtDied =>
          refine h.threads rfl rfl rfl rfl fun q hq => ?_
          have hq' := hcalm q hq
          obtain rfl := Option.some.inj hq
          exact ⟨hserving.cache, hserving.fetching, hserving.utxoSend, by simp, by simp,
            hserving.writerReceived, hq', hserving.captured⟩
      | queriesSent msg hsend hrecv =>
          refine h.threads rfl rfl rfl rfl fun q hq => ?_
          have hq' := hcalm q hq
          obtain rfl := Option.some.inj hq
          refine ⟨hserving.cache, hserving.fetching, hserving.utxoSend, by simp, by simp,
            fun written heq => ?_, hq', hserving.captured⟩
          obtain rfl := WriterThread.received.inj heq
          exact hserving.queryFmtSend msg hsend
      | committed msg db hreceived hexecute =>
          obtain ⟨inputsUtxoMap, hright, hqueries⟩ := hserving.writerReceived msg hreceived
          have hheld : msg.batch ∈ heldBy p := by simp [heldBy, hreceived]
          have hsublist := h.held_sublist hinv hworkers hheld
          have hsaying := saying_of_fmt (hvalid.heights_of_sub hsublist) hqueries
          have hstored := h.stored.executed hvalid hsublist.subset hright
            (executed hsaying hexecute)
          have hgrow : base ++ blocksOf w.committed ⊆
              base ++ blocksOf (w.committed ++ [msg.batch]) := by
            rw [blocksOf_append, ← List.append_assoc]
            exact List.subset_append_left _ _
          refine ⟨h.upcoming, ?_, fun q hq => ?_⟩
          · simpa [blocksOf, World.setWriter, World.publish] using hstored
          · obtain rfl := Option.some.inj hq
            exact (hserving.setWriter (by simp)).mono hgrow
      | refused failAt msg transaction error hreceived herror =>
          refine h.threads rfl rfl rfl rfl fun q hq => ?_
          obtain rfl := Option.some.inj hq
          exact hserving.setWriter (by simp)
      | acknowledged | anyMissing | writerDone | writerDied =>
          refine h.threads rfl rfl rfl rfl fun q hq => ?_
          obtain rfl := Option.some.inj hq
          exact hserving.setWriter (by simp)

end BitcoinIndexer.Fees
