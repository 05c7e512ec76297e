import BitcoinIndexer.Pipeline.Accesses
import BitcoinIndexer.Pipeline.Invariant

/-!
# Handing over, stopping and starting

The safety of `flush_batch`, `stop_workers` and `start_workers` under every
interference of the workers.  What a caller wants to keep true meanwhile is a
`View`: an assertion with the blocks that may still be handed over, and the facts
about it that these three programs need.
-/

namespace BitcoinIndexer.Pipeline

open BitcoinIndexer.Types
open BitcoinIndexer.Tables
open BitcoinIndexer.Worker
open BitcoinIndexer.Store
open BitcoinIndexer.Interleaving

/-! ## The accesses and the pipeline invariant -/

/-- The caller has a pipeline it can send to. -/
def Running (w : World) : Prop := ∃ p, w.workers = some p ∧ p.txOpen = true

namespace PipeInv

variable {extra : List BlockHash} {w : World} {p : Workers}

theorem lock (h : PipeInv [] w) {ids : List BlockHash}
    (hfresh : (w.handed.flatMap Batch.ids ++ ids).Nodup) : PipeInv ids (lock ids w) := by
  refine
    { reach := h.reach
      line := h.line
      complete := h.complete
      acked := h.acked
      covered := fun batch hmem id hid => ?_
      exact := fun hq id hid => ?_
      locked := fun id hid => Finset.mem_union_right _ (List.mem_toFinset.2 hid)
      ahead := fun id hid hin => (List.nodup_append.1 hfresh).2.2 id hin id hid rfl
      distinct := h.distinct
      nonempty := h.nonempty
      formed := h.formed
      cascade := h.cascade
      blameless := h.blameless
      barred := h.barred }
  · exact Finset.mem_union_left _ (h.covered batch hmem id hid)
  · obtain hold | hnew := Finset.mem_union.1 hid
    · obtain hnil | hbatch := h.exact hq id hold
      · simp at hnil
      · exact Or.inr hbatch
    · exact Or.inl (List.mem_toFinset.1 hnew)

theorem handOver {batch : Batch} (h : PipeInv batch.ids w) (hworkers : w.workers = some p)
    (hrecv : p.utxo = .recv) (hnonempty : batch.blocks ≠ [])
    (hnodup : batch.ids.Nodup) : PipeInv [] (handOver batch p w) := by
  have hcascade := h.cascade p hworkers
  have hhealthy : Healthy { p with utxo := .received batch } → Healthy p := by
    simp [Healthy, hrecv]
  have hback : healthy (Pipeline.handOver batch p w) → healthy w := fun hq =>
    (healthy_some hworkers).2 (hhealthy ((healthy_some rfl).1 hq))
  have hlive : healthy w ∧ liveIn { p with utxo := .received batch } = live w ++ [batch] ∨
      ¬ healthy w ∧ liveIn { p with utxo := .received batch } = live w := by
    rw [live_some hworkers, healthy_some hworkers]
    cases hwriter : p.writer.exit with
    | some exit =>
        have hunsound : ¬ Healthy p := by
          intro hsound
          have hok : p.writer = .exited .ok := by
            cases hstate : p.writer <;> simp_all [Healthy, sound]
          have hgone : p.queryFmt = .exited .ok := by
            have hsome := hcascade.writer hok
            cases hstate : p.queryFmt <;> simp_all [Healthy, sound]
          simpa [hrecv] using hcascade.queryFmt hgone
        exact Or.inr ⟨hunsound, by simp [liveIn, hwriter]⟩
    | none =>
        cases hqueryFmt : p.queryFmt.exit with
        | some exit =>
            have hunsound : ¬ Healthy p := by
              intro hsound
              have hok : p.queryFmt = .exited .ok := by
                cases hstate : p.queryFmt <;> simp_all [Healthy, sound]
              simpa [hrecv] using hcascade.queryFmt hok
            exact Or.inr ⟨hunsound, by simp [liveIn, hwriter, hqueryFmt]⟩
        | none =>
            apply Or.inl
            exact ⟨by simp [Healthy, sound, hrecv, hwriter, hqueryFmt],
              by simp [liveIn, hwriter, hqueryFmt, hrecv]⟩
  have hflight : flight (Pipeline.handOver batch p w) = flight w ++ [batch] := by
    obtain ⟨rest, hrest⟩ := h.committed_initial
    simp [flight, Pipeline.handOver, ← hrest]
  have hunacked : unacked (Pipeline.handOver batch p w) = unacked w ++ [batch] := by
    rw [unacked, hflight, unacked_some hworkers, List.append_assoc]
    rfl
  refine
    { reach := ?_
      line := ?_
      complete := fun hq => ?_
      acked := ?_
      covered := fun b hmem id hid => ?_
      exact := fun hq id hid => ?_
      locked := by simp
      ahead := by simp
      distinct := ?_
      nonempty := ?_
      formed := fun r hr => Option.some.inj hr ▸
        (h.formed p hworkers).setUtxo p.utxoSetCache (by simp) (by simp)
      cascade := fun r hr => Option.some.inj hr ▸
        hcascade.setUtxo p.utxoSetCache (by simp [hrecv]) (by simp)
      blameless := fun hq => h.blameless (hback hq)
      barred := ?_ }
  · change w.committed ++ liveIn _ <+: w.handed ++ [batch]
    obtain ⟨hh, hlive⟩ | ⟨-, hlive⟩ := hlive
    · rw [hlive, ← List.append_assoc, h.complete hh]
    · rw [hlive]
      exact h.reach.trans (List.prefix_append _ _)
  · have hline := h.line
    rw [held_some hworkers] at hline
    have hheld : heldBy { p with utxo := .received batch } = heldBy p ++ [batch] := by
      simp [heldBy, hrecv]
    change (w.committed ++ heldBy _).Sublist (w.handed ++ [batch])
    rw [hheld, ← List.append_assoc]
    exact hline.append_right _
  · change w.committed ++ liveIn _ = w.handed ++ [batch]
    obtain ⟨hh, hlive⟩ | ⟨hnot, -⟩ := hlive
    · rw [hlive, ← List.append_assoc, h.complete hh]
    · exact absurd (hback hq) hnot
  · have hacked := h.acked
    rwa [acking_some hworkers] at hacked
  · rw [hunacked] at hmem
    obtain hold | hnew := List.mem_append.1 hmem
    · exact h.covered b hold id hid
    · obtain rfl := List.mem_singleton.1 hnew
      exact h.locked id hid
  · rw [hunacked]
    obtain hbatch | ⟨b, hmem, hin⟩ := h.exact (hback hq) id hid
    · exact Or.inr ⟨batch, by simp, hbatch⟩
    · exact Or.inr ⟨b, List.mem_append_left _ hmem, hin⟩
  · change ((w.handed ++ [batch]).flatMap Batch.ids).Nodup
    rw [List.flatMap_append, List.flatMap_singleton, List.nodup_append]
    refine ⟨h.distinct, hnodup, fun id hid other hother heq => ?_⟩
    exact h.ahead other hother (heq ▸ hid)
  · intro b hmem
    obtain hold | hnew := List.mem_append.1 hmem
    · exact h.nonempty b hold
    · exact List.mem_singleton.1 hnew ▸ hnonempty
  · intro i b hget hmem
    change w.committed.length + (liveIn _).length ≤ i + 1
    obtain ⟨hh, -⟩ | ⟨-, hlive⟩ := hlive
    · have hnone : b ∈ w.failed := hmem
      simp [h.blameless hh] at hnone
    · rw [hlive]
      by_cases hlt : i < w.handed.length
      · have hold : (w.handed ++ [batch])[i]? = some b := hget
        rw [List.getElem?_append_left hlt] at hold
        exact h.barred i b hold hmem
      · have hreach := h.reach.length_le
        rw [List.length_append] at hreach
        omega

theorem closeTx (h : PipeInv extra w) (hworkers : w.workers = some p) :
    PipeInv extra { w with workers := some { p with txOpen := false } } := by
  have hformed := h.formed p hworkers
  have hcascade := h.cascade p hworkers
  exact h.silent hworkers rfl rfl rfl Iff.rfl
    ⟨hformed.fetching, hformed.utxoSend, hformed.queryFmtReceived,
      fun msg hmsg => (hformed.queryFmtSend msg hmsg).congr rfl rfl,
      fun msg hmsg => (hformed.writerReceived msg hmsg).congr rfl rfl,
      fun msg hmsg => (hformed.writerCommitted msg hmsg).congr rfl rfl⟩
    ⟨fun _ => rfl, hcascade.queryFmt, hcascade.writer⟩

/-- All threads have left in the regular way: everything handed over is committed. -/
theorem join (h : PipeInv extra w) (hworkers : w.workers = some p)
    (hutxo : p.utxo = .exited .ok) (hqueryFmt : p.queryFmt = .exited .ok)
    (hwriter : p.writer = .exited .ok) : PipeInv extra { w with workers := none } := by
  have hlive : live w = [] := by simp [live_some hworkers, liveIn, hwriter]
  have hacking : acking w = [] := by simp [acking_some hworkers, hwriter]
  have hhealthy : healthy w := by
    rw [healthy_some hworkers]
    simp [Healthy, sound, hutxo, hqueryFmt, hwriter]
  have hcomplete := h.complete hhealthy
  have hbarred := h.barred
  have hcovered := h.covered
  have hexact := h.exact hhealthy
  rw [hlive] at hcomplete hbarred
  rw [unacked, hacking] at hcovered hexact
  exact
    { reach := by simpa [live] using h.committed_initial
      line := by
        have hline := h.line
        rw [held_some hworkers] at hline
        exact (List.Sublist.append_left (List.nil_sublist _) _).trans hline
      complete := fun _ => hcomplete
      acked := List.nil_suffix
      covered := hcovered
      exact := fun _ => hexact
      locked := h.locked
      ahead := h.ahead
      distinct := h.distinct
      nonempty := h.nonempty
      formed := by simp
      cascade := by simp
      blameless := fun _ => h.blameless hhealthy
      barred := hbarred }

theorem spawn (h : PipeInv extra w) (hworkers : w.workers = none) (mode : Mode)
    (network : Network) : PipeInv extra { w with workers := some (.new mode network) } := by
  have hhealthy := healthy_none hworkers
  have hlive : live { w with workers := some (.new mode network) } = live w := by
    rw [live_none hworkers]
    rfl
  have hunacked : unacked { w with workers := some (.new mode network) } = unacked w := by
    simp [unacked, acking, flight, hworkers, Workers.new]
  exact
    { reach := by rw [hlive]; exact h.reach
      line := by simpa [held, heldBy, Workers.new, hworkers] using h.line
      complete := fun _ => by rw [hlive]; exact h.complete hhealthy
      acked := List.nil_suffix
      covered := by rw [hunacked]; exact h.covered
      exact := fun _ => by rw [hunacked]; exact h.exact hhealthy
      locked := h.locked
      ahead := h.ahead
      distinct := h.distinct
      nonempty := h.nonempty
      formed := fun r hr => Option.some.inj hr ▸ ⟨by simp [Workers.new], by simp [Workers.new],
        by simp [Workers.new], by simp [Workers.new], by simp [Workers.new], by simp [Workers.new]⟩
      cascade := fun r hr => Option.some.inj hr ▸
        ⟨by simp [Workers.new], by simp [Workers.new], by simp [Workers.new]⟩
      blameless := fun _ => h.blameless hhealthy
      barred := by rw [hlive]; exact h.barred }

/-- Without workers nothing is under way. -/
theorem settled (h : PipeInv [] w) (hworkers : w.workers = none) :
    w.committed = w.handed ∧ w.inFlight = ∅ := by
  have hcomplete := h.complete (healthy_none hworkers)
  rw [live_none hworkers, List.append_nil] at hcomplete
  refine ⟨hcomplete, Finset.eq_empty_of_forall_notMem fun id hid => ?_⟩
  obtain hnil | ⟨batch, hmem, -⟩ := h.exact (healthy_none hworkers) id hid
  · simp at hnil
  · simp [unacked, acking, flight, hworkers, hcomplete] at hmem

/-- An empty set means that everything handed over is committed. -/
theorem landed (h : PipeInv extra w) (hempty : w.inFlight = ∅) : w.committed = w.handed := by
  obtain ⟨rest, hrest⟩ := h.committed_initial
  cases rest with
  | nil => rw [← hrest, List.append_nil]
  | cons batch rest =>
      have hflight : batch ∈ flight w := by simp [flight, ← hrest]
      obtain ⟨block, blocks, hblocks⟩ :=
        List.exists_cons_of_ne_nil (h.nonempty batch (by simp [← hrest]))
      have hid := h.covered batch (List.mem_append_right _ hflight) block.id
        (by simp [Batch.ids, hblocks])
      simp [hempty] at hid

end PipeInv

/-! ## Assertions the workers keep -/

section Kept

variable {w : World} {p : Workers}

theorem running_step (h : Running w) (event : WorkerEvent) : Running (w.step event) := by
  obtain ⟨p, hworkers, htx⟩ := h
  have htransition := transition_step hworkers event
  generalize w.step event = after at htransition
  cases htransition with
  | stay => exact ⟨p, hworkers, htx⟩
  | _ => exact ⟨_, rfl, htx⟩

theorem working_step (h : w.workers ≠ none) (event : WorkerEvent) :
    (w.step event).workers ≠ none := by
  obtain ⟨p, hworkers⟩ := Option.ne_none_iff_exists'.1 h
  have htransition := transition_step hworkers event
  generalize w.step event = after at htransition
  cases htransition with
  | stay => exact h
  | _ => exact Option.some_ne_none _

/-- Everything handed over is committed, and the caller can hand over more. -/
def Landed (w : World) : Prop := Running w ∧ w.committed = w.handed

theorem landed_step {extra : List BlockHash} (hinv : PipeInv extra w) (h : Landed w)
    (event : WorkerEvent) : Landed (w.step event) := by
  refine ⟨running_step h.1 event, ?_⟩
  obtain ⟨p, hworkers, -⟩ := h.1
  have hinitial := (hinv.step event).committed_initial
  have htransition := transition_step hworkers event
  generalize w.step event = after at htransition hinitial
  cases htransition with
  | committed msg db =>
      have hlength := hinitial.length_le
      change (w.committed ++ [msg.batch]).length ≤ w.handed.length at hlength
      rw [h.2, List.length_append, List.length_singleton] at hlength
      exact absurd hlength (Nat.not_succ_le_self _)
  | _ => exact h.2

/-- The first thread has left its loop in the regular way. -/
def UtxoJoined (w : World) : Prop := ∃ p, w.workers = some p ∧ p.utxo = .exited .ok

def QueryFmtJoined (w : World) : Prop :=
  ∃ p, w.workers = some p ∧ p.utxo = .exited .ok ∧ p.queryFmt = .exited .ok

theorem UtxoJoined.working (h : UtxoJoined w) : w.workers ≠ none := by
  obtain ⟨p, hworkers, -⟩ := h
  simp [hworkers]

theorem QueryFmtJoined.working (h : QueryFmtJoined w) : w.workers ≠ none := by
  obtain ⟨p, hworkers, -⟩ := h
  simp [hworkers]

theorem utxoJoined_step (h : UtxoJoined w) (event : WorkerEvent) :
    UtxoJoined (w.step event) := by
  obtain ⟨p, hworkers, hutxo⟩ := h
  have htransition := transition_step hworkers event
  generalize w.step event = after at htransition
  cases htransition with
  | stay => exact ⟨p, hworkers, hutxo⟩
  | utxoDied fails exit hexit hlive => simp [hutxo] at hlive
  | utxoDone hrecv => simp [hutxo] at hrecv
  | blocksProcessed batch consumed hreceived => simp [hutxo] at hreceived
  | chunkFetched batch fetch chunk queries hfetching => simp [hutxo] at hfetching
  | fetched batch fetch hfetching => simp [hutxo] at hfetching
  | utxoSent msg hsend => simp [hutxo] at hsend
  | _ => exact ⟨_, rfl, hutxo⟩

theorem queryFmtJoined_step (h : QueryFmtJoined w) (event : WorkerEvent) :
    QueryFmtJoined (w.step event) := by
  obtain ⟨p, hworkers, hutxo, hqueryFmt⟩ := h
  have htransition := transition_step hworkers event
  generalize w.step event = after at htransition
  cases htransition with
  | stay => exact ⟨p, hworkers, hutxo, hqueryFmt⟩
  | utxoDied fails exit hexit hlive => simp [hutxo] at hlive
  | utxoDone hrecv => simp [hutxo] at hrecv
  | blocksProcessed batch consumed hreceived => simp [hutxo] at hreceived
  | chunkFetched batch fetch chunk queries hfetching => simp [hutxo] at hfetching
  | fetched batch fetch hfetching => simp [hutxo] at hfetching
  | utxoSent msg hsend => simp [hutxo] at hsend
  | formatted msg queries height hreceived => simp [hqueryFmt] at hreceived
  | queryFmtDone hrecv => simp [hqueryFmt] at hrecv
  | queryFmtDied fails exit hexit hlive => simp [hqueryFmt] at hlive
  | queriesSent msg hsend => simp [hqueryFmt] at hsend
  | _ => exact ⟨_, rfl, hutxo, hqueryFmt⟩

end Kept

/-! ## Views -/

variable {κ : Type}

/-- What a caller keeps true while it works the pipeline: `holds next` is its
assertion when the blocks `next` are still to be handed over, `spawns` says for which
network it starts workers. -/
structure View (D : Discipline Act IndexerStore Halt World WorkerEvent κ) (I : World → Prop)
    (E : Halt → IndexerStore → World → Prop) where
  holds : List BlockData → World → Prop
  spawns : Mode → Network → Prop
  inv : ∀ {extra next w}, PipeInv extra w → holds next w → I w
  died : ∀ {extra next w reason locals}, PipeInv extra w → holds next w → ¬ healthy w →
    reason = .sendFailed ∨ reason = .workerDied → E (.panicked reason) locals w
  step : ∀ {extra next w event}, D.event event w → PipeInv extra w → holds next w →
    holds next (w.step event)
  lock : ∀ {next w ids}, holds next w → holds next (lock ids w)
  fresh : ∀ {blocks next w}, PipeInv [] w → holds (blocks ++ next) w →
    (w.handed.flatMap Batch.ids ++ blocks.map (·.id)).Nodup
  handOver : ∀ {batch next w p}, PipeInv batch.ids w → holds (batch.blocks ++ next) w →
    w.workers = some p → p.utxo = .recv → holds next (handOver batch p w)
  closeTx : ∀ {next w p}, PipeInv [] w → holds next w → w.workers = some p →
    holds next { w with workers := some { p with txOpen := false } }
  join : ∀ {next w p}, PipeInv [] w → holds next w → w.workers = some p →
    p.utxo = .exited .ok → p.queryFmt = .exited .ok → p.writer = .exited .ok →
    holds next { w with workers := none }
  spawn : ∀ {next w mode network}, PipeInv [] w → holds next w → w.workers = none →
    spawns mode network → holds next { w with workers := some (.new mode network) }

namespace View

variable {D : Discipline Act IndexerStore Halt World WorkerEvent κ} {I : World → Prop}
variable {E : Halt → IndexerStore → World → Prop}
variable {enter : κ → World → World} {body : κ → StoreM Unit}
variable (V : View D I E)

/-- The view together with the invariant of the pipeline. -/
def At (extra : List BlockHash) (next : List BlockData) (w : World) : Prop :=
  PipeInv extra w ∧ V.holds next w

theorem stable_at {R : World → Prop} (hR : ∀ w event, R w → R (w.step event))
    (extra : List BlockHash) (next : List BlockData) :
    D.Stable (systemOf enter body) fun w => V.At extra next w ∧ R w :=
  fun event w hevent h =>
    ⟨⟨h.1.1.step event, V.step hevent h.1.1 h.1.2⟩, hR w event h.2⟩

theorem stable_running (extra : List BlockHash) (next : List BlockData) :
    D.Stable (systemOf enter body) fun w => V.At extra next w ∧ Running w :=
  V.stable_at (fun _ event h => running_step h event) extra next

theorem stable_landed (next : List BlockData) :
    D.Stable (systemOf enter body) fun w => V.At [] next w ∧ Landed w :=
  fun event _ hevent h =>
    ⟨⟨h.1.1.step event, V.step hevent h.1.1 h.1.2⟩, landed_step h.1.1 h.2 event⟩

theorem stable_stopped (extra : List BlockHash) (next : List BlockData) :
    D.Stable (systemOf enter body) fun w => V.At extra next w ∧ w.workers = none :=
  V.stable_at (fun _ event h => by rwa [step_none h event]) extra next

def flushed (store : IndexerStore) : IndexerStore :=
  if store.batch.isEmpty then store
  else { store with batch := [], batchTxsTotal := 0, batchId := store.batchId + 1 }

@[simp]
theorem flushed_mode (store : IndexerStore) : (flushed store).mode = store.mode := by
  by_cases hempty : store.batch.isEmpty <;> simp [flushed, hempty]

@[simp]
theorem flushed_network (store : IndexerStore) : (flushed store).network = store.network := by
  by_cases hempty : store.batch.isEmpty <;> simp [flushed, hempty]

theorem safe_flushBatch {locals : IndexerStore} {w : World} {next : List BlockData}
    (hat : V.At [] (locals.batch ++ next) w) (hrun : Running w) :
    Safe (systemOf enter body) D I E
      (fun _ locals' w' => locals' = flushed locals ∧ V.At [] next w' ∧ Running w')
      flushBatch locals w := by
  cases hbatch : locals.batch with
  | nil =>
      have hflushed : flushed locals = locals := by simp [flushed, hbatch]
      simp only [flushBatch, Prog.bind_eq, Prog.read_bind, safe_loc, hbatch, List.isEmpty_nil,
        if_true, Prog.pure_eq, safe_pure]
      exact ⟨hflushed.symm, by simpa [hbatch] using hat, hrun⟩
  | cons block blocks =>
      have hflushed : flushed locals =
          { locals with batch := [], batchTxsTotal := 0, batchId := locals.batchId + 1 } := by
        simp [flushed, hbatch]
      have hfresh := V.fresh hat.1 hat.2
      rw [hbatch] at hat hfresh
      simp only [flushBatch, Prog.bind_eq, Prog.read_bind, safe_loc, hbatch, List.isEmpty_cons,
        Bool.false_eq_true, if_false, Prog.modify_bind, Prog.perform_bind]
      have hnodup : (Batch.ids ⟨locals.batchId, block :: blocks⟩).Nodup :=
        (List.nodup_append.1 hfresh).2.1
      apply Safe.act (V.stable_running [] (block :: blocks ++ next))
        (fun _ h => V.inv h.1.1 h.1.2) _ ⟨hat, hrun⟩
      intro before hbefore _ _
      have hlocked : V.At (Batch.ids ⟨locals.batchId, block :: blocks⟩)
          (block :: blocks ++ next) (Pipeline.lock (block.id :: blocks.map (·.id)) before) :=
        ⟨hbefore.1.1.lock (V.fresh hbefore.1.1 hbefore.1.2), V.lock hbefore.1.2⟩
      apply Safe.act (V.stable_running _ (block :: blocks ++ next))
        (fun _ h => V.inv h.1.1 h.1.2) _ ⟨hlocked, hbefore.2⟩
      intro ready hready _ _
      obtain ⟨⟨hinv, hholds⟩, p, hworkers, htx⟩ := hready
      simp only [systemOf_exec, exec, sendTo, hworkers]
      cases hutxo : p.utxo with
      | recv =>
          have hnext : V.At [] next (Pipeline.handOver ⟨locals.batchId, block :: blocks⟩ p ready) :=
            ⟨hinv.handOver hworkers hutxo (by simp) hnodup,
              V.handOver hinv hholds hworkers hutxo⟩
          exact safe_modify.2 ⟨hflushed.symm, hnext, _, rfl, htx⟩
      | exited exit =>
          apply V.died hinv hholds _ (.inl rfl)
          intro hhealthy
          have hsound := ((healthy_some hworkers).1 hhealthy).1
          have hok : p.utxo = .exited .ok := by
            simpa [sound, hutxo] using hsound
          simp [(hinv.cascade p hworkers).utxo hok] at htx
      | _ => trivial

/-! ### Stopping and starting -/

/-- The rule for joining one thread. -/
theorem safe_join {thread : Thread} {R : World → Prop} {locals : IndexerStore} {w : World}
    {next : List BlockData} {rest : Unit → StoreM Unit} {Q : Unit → IndexerStore → World → Prop}
    (hR : ∀ w event, R w → R (w.step event)) (hworking : ∀ w, R w → w.workers ≠ none)
    (hrest : ∀ w p, V.At [] next w → R w → w.workers = some p → exitOf thread p = some .ok →
      Safe (systemOf enter body) D I E Q (rest ()) locals
        { w with workers := if thread = .writer then none else some p })
    (hat : V.At [] next w) (hholds : R w) :
    Safe (systemOf enter body) D I E Q (.act (.join thread) rest) locals w := by
  apply Safe.act (V.stable_at hR [] next) (fun _ h => V.inv h.1.1 h.1.2) _ ⟨hat, hholds⟩
  intro ready hready _ _
  cases hworkers : ready.workers with
  | none => exact absurd hworkers (hworking ready hready.2)
  | some p =>
      simp only [systemOf_exec, exec, joinThread, hworkers]
      cases hexit : exitOf thread p with
      | none => trivial
      | some exit =>
          cases exit with
          | ok => exact hrest ready p hready.1 hready.2 hworkers hexit
          | _ =>
              apply V.died hready.1.1 hready.1.2 _ (.inr rfl)
              rw [healthy_some hworkers]
              cases thread <;> simp_all [exitOf, Healthy, sound]

theorem safe_assertInFlightEmpty {locals : IndexerStore} {w : World} {next : List BlockData}
    {Q : Unit → IndexerStore → World → Prop} {rest : Unit → StoreM Unit}
    (hat : V.At [] next w) (hworkers : w.workers = none)
    (hrest : ∀ w, V.At [] next w → w.workers = none →
      Safe (systemOf enter body) D I E Q (rest ()) locals w) :
    Safe (systemOf enter body) D I E Q (.act .assertInFlightEmpty rest) locals w := by
  apply Safe.act (V.stable_stopped [] next) (fun _ h => V.inv h.1.1 h.1.2) _ ⟨hat, hworkers⟩
  intro ready hready _ _
  have hempty : ready.inFlight = ∅ := (hready.1.1.settled hready.2).2
  simp only [systemOf_exec, exec, hempty, if_true]
  exact hrest ready hready.1 hready.2

theorem safe_stopWorkers {locals : IndexerStore} {w : World} {next : List BlockData}
    (hat : V.At [] next w) (hrun : Running w) :
    Safe (systemOf enter body) D I E
      (fun _ locals' w' => locals' = locals ∧ V.At [] next w' ∧ w'.workers = none)
      stopWorkers locals w := by
  simp only [stopWorkers, Prog.bind_eq, Prog.perform_bind]
  apply Safe.act (V.stable_running [] next) (fun _ h => V.inv h.1.1 h.1.2) _ ⟨hat, hrun⟩
  intro before hbefore _ _
  obtain ⟨⟨hinv, hholds⟩, p, hworkers, htx⟩ := hbefore
  have hdropped : V.At [] next (dropSender before) ∧ (dropSender before).workers ≠ none := by
    have hdrop : dropSender before =
        { before with workers := some { p with txOpen := false } } := by
      simp [dropSender, hworkers]
    rw [hdrop]
    exact ⟨⟨hinv.closeTx hworkers, V.closeTx hinv hholds hworkers⟩, by simp⟩
  apply V.safe_join (fun _ event h => working_step h event) (fun _ h => h) _ hdropped.1 hdropped.2
  intro first p hfirst _ hworkers hutxo
  have hutxo : p.utxo = .exited .ok := by cases hstate : p.utxo <;> simp_all [exitOf]
  have hsame : { first with
      workers := (if Thread.utxoFetching = Thread.writer then none else some p) } = first := by simp [← hworkers]
  rw [hsame]
  apply V.safe_join (fun _ event h => utxoJoined_step h event) (fun _ h => h.working) _ hfirst
    ⟨p, hworkers, hutxo⟩
  intro second p hsecond hjoined hworkers hqueryFmt
  have hqueryFmt : p.queryFmt = .exited .ok := by cases hstate : p.queryFmt <;> simp_all [exitOf]
  have hutxo : p.utxo = .exited .ok := by
    obtain ⟨q, hq, hutxo⟩ := hjoined
    exact Option.some.inj (hworkers.symm.trans hq) ▸ hutxo
  have hsame : { second with
      workers := (if Thread.queryFmt = Thread.writer then none else some p) } = second := by simp [← hworkers]
  rw [hsame]
  apply V.safe_join (fun _ event h => queryFmtJoined_step h event) (fun _ h => h.working) _ hsecond
    ⟨p, hworkers, hutxo, hqueryFmt⟩
  intro third p hthird hjoined hworkers hwriter
  have hwriter : p.writer = .exited .ok := by cases hstate : p.writer <;> simp_all [exitOf]
  obtain ⟨q, hq, hutxo, hqueryFmt⟩ := hjoined
  obtain rfl := Option.some.inj (hworkers.symm.trans hq)
  apply V.safe_assertInFlightEmpty (w := { third with workers := none })
    ⟨hthird.1.join hworkers hutxo hqueryFmt hwriter,
      V.join hthird.1 hthird.2 hworkers hutxo hqueryFmt hwriter⟩ rfl
  exact fun w hat hworkers => ⟨rfl, hat, hworkers⟩

/-- Stopping where there is nothing to stop. -/
theorem safe_stopWorkers_stopped {locals : IndexerStore} {w : World} {next : List BlockData}
    (hat : V.At [] next w) (hworkers : w.workers = none) :
    Safe (systemOf enter body) D I E
      (fun _ locals' w' => locals' = locals ∧ V.At [] next w' ∧ w'.workers = none)
      stopWorkers locals w := by
  have hskip : ∀ {access : Act Unit} {rest : Unit → StoreM Unit} {w : World},
      (∀ fails w, w.workers = none → exec access fails w = .done () w) →
      (∀ w, V.At [] next w ∧ w.workers = none → Safe (systemOf enter body) D I E
        (fun _ locals' w' => locals' = locals ∧ V.At [] next w' ∧ w'.workers = none)
        (rest ()) locals w) →
      V.At [] next w ∧ w.workers = none → Safe (systemOf enter body) D I E
        (fun _ locals' w' => locals' = locals ∧ V.At [] next w' ∧ w'.workers = none)
        (.act access rest) locals w := by
    intro access rest w hexec hrest hw
    apply Safe.act (V.stable_stopped [] next) (fun _ h => V.inv h.1.1 h.1.2) _ hw
    intro ready hready fails _
    rw [systemOf_exec, hexec fails ready hready.2]
    exact hrest ready hready
  have hjoin : ∀ thread fails (w : World), w.workers = none →
      exec (.join thread) fails w = .done () w := by
    intro thread fails w hnone
    simp only [exec, joinThread, hnone]
  simp only [stopWorkers, Prog.bind_eq, Prog.perform_bind]
  apply hskip _ _ ⟨hat, hworkers⟩
  · intro fails w hnone
    cases w
    simp only at hnone
    simp only [exec, dropSender, hnone, Option.map_none]
  · intro w hw
    apply hskip (hjoin .utxoFetching) _ hw
    intro w hw
    apply hskip (hjoin .queryFmt) _ hw
    intro w hw
    apply hskip (hjoin .writer) _ hw
    intro w hw
    exact V.safe_assertInFlightEmpty hw.1 hw.2 fun w hat hworkers => ⟨rfl, hat, hworkers⟩

theorem safe_startWorkers {locals : IndexerStore} {w : World} {next : List BlockData}
    (hat : V.At [] next w) (hworkers : w.workers = none)
    (hspawns : V.spawns locals.mode locals.network) :
    Safe (systemOf enter body) D I E
      (fun _ locals' w' => locals' = locals ∧ V.At [] next w' ∧ Landed w')
      startWorkers locals w := by
  simp only [startWorkers, Prog.bind_eq, Prog.read_bind, safe_loc]
  apply Safe.act (V.stable_stopped [] next) (fun _ h => V.inv h.1.1 h.1.2) _ ⟨hat, hworkers⟩
  intro ready hready _ _
  exact ⟨rfl, ⟨hready.1.1.spawn hready.2 _ _, V.spawn hready.1.1 hready.1.2 hready.2 hspawns⟩,
    ⟨_, rfl, rfl⟩, (hready.1.1.settled hready.2).1⟩

/-- After `flush_workers` nothing of what was handed over is under way, unless the
pipeline had been stopped before. -/
theorem safe_flushWorkers {locals : IndexerStore} {w : World} {next : List BlockData}
    (hat : V.At [] (locals.batch ++ next) w) (hrun : Running w)
    (hspawns : V.spawns locals.mode locals.network) :
    Safe (systemOf enter body) D I E
      (fun _ locals' w' => locals' = flushed locals ∧ V.At [] next w' ∧ Landed w')
      flushWorkers locals w := by
  simp only [flushWorkers, Prog.bind_eq, Prog.perform_bind]
  apply Safe.act (V.stable_running [] (locals.batch ++ next)) (fun _ h => V.inv h.1.1 h.1.2) _
    ⟨hat, hrun⟩
  intro ready hready _ _
  have hworking : (!ready.workers.any (·.txOpen)) = false := by
    obtain ⟨p, hworkers, htx⟩ := hready.2
    simp [hworkers, htx]
  simp only [systemOf_exec, exec, hworking, Bool.false_eq_true, if_false]
  apply Safe.bind _ (V.safe_flushBatch hready.1 hready.2)
  rintro _ _ flushed ⟨rfl, hat, hrun⟩
  apply Safe.act (V.stable_running [] next) (fun _ h => V.inv h.1.1 h.1.2) _ ⟨hat, hrun⟩
  intro looked hlooked _ _
  simp only [systemOf_exec, exec]
  by_cases hempty : looked.inFlight = ∅
  · simp only [hempty, decide_true, if_true, Prog.pure_eq, safe_pure]
    exact ⟨trivial, hlooked.1, hlooked.2, hlooked.1.1.landed hempty⟩
  · simp only [hempty, decide_false, Bool.false_eq_true, if_false, flushWorkersUnconditionally,
      Prog.bind_eq]
    apply Safe.bind _ (V.safe_stopWorkers hlooked.1 hlooked.2)
    rintro _ _ stopped ⟨rfl, hat, hworkers⟩
    apply V.safe_startWorkers hat hworkers
    simpa only [flushed_mode, flushed_network] using hspawns

theorem safe_flushWorkers_stopped {locals : IndexerStore} {w : World} {next : List BlockData}
    (hat : V.At [] next w) (hworkers : w.workers = none) :
    Safe (systemOf enter body) D I E
      (fun _ locals' w' => locals' = locals ∧ V.At [] next w' ∧ w'.workers = none)
      flushWorkers locals w := by
  simp only [flushWorkers, Prog.bind_eq, Prog.perform_bind]
  apply Safe.act (V.stable_stopped [] next) (fun _ h => V.inv h.1.1 h.1.2) _ ⟨hat, hworkers⟩
  intro ready hready _ _
  simp only [systemOf_exec, exec, hready.2, Option.any_none, Bool.not_false, if_true,
    Prog.pure_eq, safe_pure]
  exact ⟨trivial, hready.1, trivial⟩

end View

end BitcoinIndexer.Pipeline
