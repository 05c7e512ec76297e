import BitcoinIndexer.Pipeline.Transition

/-!
# The invariant of the pipeline

Where every batch handed to the workers is: committed, on its way to the writer
through live threads, or lost in a thread that failed.  A failed thread cuts the
line, so that what is behind it never reaches the writer.
-/

namespace BitcoinIndexer.Pipeline

open BitcoinIndexer.Types
open BitcoinIndexer.Formatter
open BitcoinIndexer.UtxoCache
open BitcoinIndexer.Worker

/-- A thread that still runs, or has left its loop in the regular way. -/
def sound (exit : Option Exit) : Prop := exit = none ∨ exit = some .ok

def Healthy (p : Workers) : Prop :=
  sound p.utxo.exit ∧ sound p.queryFmt.exit ∧ sound p.writer.exit

/-- The batches the threads hold, the oldest first. -/
def heldBy (p : Workers) : List Batch :=
  p.writer.held ++ (p.queryFmt.held ++ p.utxo.held)

/-- Those of them that can still reach the writer. -/
def liveIn (p : Workers) : List Batch :=
  p.writer.held ++
    if p.writer.exit.isSome then []
    else p.queryFmt.held ++ if p.queryFmt.exit.isSome then [] else p.utxo.held

def held (w : World) : List Batch := w.workers.elim [] heldBy

def live (w : World) : List Batch := w.workers.elim [] liveIn

def acking (w : World) : List Batch := w.workers.elim [] (·.writer.acking)

def healthy (w : World) : Prop := ∀ p, w.workers = some p → Healthy p

/-- Handed over and not committed. -/
def flight (w : World) : List Batch := w.handed.drop w.committed.length

/-- Handed over and still to be removed from `in_flight`. -/
def unacked (w : World) : List Batch := acking w ++ flight w

/-- A message for the writer is what the formatter makes of its blocks. -/
structure Formatted (p : Workers) (msg : WriterMsg) : Prop where
  ids : msg.blockIds = msg.batch.ids.toFinset
  queries : ∃ inputsUtxoMap, fmtInsertBlockdataSql msg.batch.blocks inputsUtxoMap
    (txIdMapFromBlocks msg.batch.blocks p.network) p.mode p.network = .ok msg.queries

structure Formed (p : Workers) : Prop where
  fetching : ∀ batch fetch, p.utxo = .fetching batch fetch →
    fetch.txIds = txIdMapFromBlocks batch.blocks p.network
  utxoSend : ∀ msg, p.utxo = .send msg →
    msg.txIds = txIdMapFromBlocks msg.batch.blocks p.network
  queryFmtReceived : ∀ msg, p.queryFmt = .received msg →
    msg.txIds = txIdMapFromBlocks msg.batch.blocks p.network
  queryFmtSend : ∀ msg, p.queryFmt = .send msg → Formatted p msg
  writerReceived : ∀ msg, p.writer = .received msg → Formatted p msg
  writerCommitted : ∀ msg, p.writer = .committed msg → Formatted p msg

/-- Regular exits cascade down from the closed channel. -/
structure Cascade (p : Workers) : Prop where
  utxo : p.utxo = .exited .ok → p.txOpen = false
  queryFmt : p.queryFmt = .exited .ok → p.utxo.exit.isSome
  writer : p.writer = .exited .ok → p.queryFmt.exit.isSome

/-- `extra` are the ids the caller has put into `in_flight` ahead of a send. -/
structure PipeInv (extra : List BlockHash) (w : World) : Prop where
  reach : w.committed ++ live w <+: w.handed
  line : (w.committed ++ held w).Sublist w.handed
  complete : healthy w → w.committed ++ live w = w.handed
  acked : acking w <:+ w.committed
  covered : ∀ batch ∈ unacked w, ∀ id ∈ batch.ids, id ∈ w.inFlight
  exact : healthy w → ∀ id ∈ w.inFlight, id ∈ extra ∨ ∃ batch ∈ unacked w, id ∈ batch.ids
  locked : ∀ id ∈ extra, id ∈ w.inFlight
  ahead : ∀ id ∈ extra, id ∉ w.handed.flatMap Batch.ids
  distinct : (w.handed.flatMap Batch.ids).Nodup
  nonempty : ∀ batch ∈ w.handed, batch.blocks ≠ []
  formed : ∀ p, w.workers = some p → Formed p
  cascade : ∀ p, w.workers = some p → Cascade p
  blameless : healthy w → w.failed = []
  barred : ∀ (i : ℕ) (batch : Batch), w.handed[i]? = some batch → batch ∈ w.failed →
    w.committed.length + (live w).length ≤ i + 1

section Views

variable {w : World} {p : Workers}

theorem held_some (hworkers : w.workers = some p) : held w = heldBy p := by
  simp [held, hworkers]

theorem live_some (hworkers : w.workers = some p) : live w = liveIn p := by
  simp [live, hworkers]

theorem acking_some (hworkers : w.workers = some p) : acking w = p.writer.acking := by
  simp [acking, hworkers]

theorem healthy_some (hworkers : w.workers = some p) : healthy w ↔ Healthy p := by
  simp [healthy, hworkers]

theorem live_none (hworkers : w.workers = none) : live w = [] := by
  simp [live, hworkers]

theorem healthy_none (hworkers : w.workers = none) : healthy w := by
  simp [healthy, hworkers]

theorem unacked_some (hworkers : w.workers = some p) :
    unacked w = p.writer.acking ++ flight w := by
  rw [unacked, acking_some hworkers]

end Views

/-- Elements of a list of distinct ones come no earlier than in a sublist. -/
theorem length_le_of_sublist {α : Type} {before : List α} {a : α} {l : List α} {i : ℕ}
    (hsub : (before ++ [a]).Sublist l) (hnodup : l.Nodup) (hget : l[i]? = some a) :
    before.length ≤ i := by
  obtain ⟨left, right, rfl, hleft, hright⟩ := List.append_sublist_iff.1 hsub
  have hmem : a ∈ right := List.singleton_sublist.1 hright
  have hnot : a ∉ left := fun hin =>
    (List.nodup_append.1 hnodup).2.2 a hin a hmem rfl
  by_contra hlt
  have hshort : i < left.length := lt_of_lt_of_le (not_le.1 hlt) hleft.length_le
  rw [List.getElem?_append_left hshort] at hget
  exact hnot (List.mem_of_getElem? hget)

namespace PipeInv

variable {extra : List BlockHash} {w : World} {p : Workers}

theorem nodup_handed (h : PipeInv extra w) : w.handed.Nodup := by
  have hpair := (List.nodup_flatMap.1 h.distinct).2
  apply List.Pairwise.imp_of_mem _ hpair
  intro left right hleft _ hdisjoint heq
  obtain ⟨block, blocks, hblocks⟩ := List.exists_cons_of_ne_nil (h.nonempty left hleft)
  have hid : block.id ∈ left.ids := by simp [Batch.ids, hblocks]
  exact hdisjoint hid (heq ▸ hid)

theorem committed_initial (h : PipeInv extra w) : w.committed <+: w.handed :=
  (List.prefix_append _ _).trans h.reach

/-- A step that moves nothing in or out of the line. -/
theorem silent (h : PipeInv extra w) (hworkers : w.workers = some p) {q : Workers}
    (hheld : heldBy q = heldBy p) (hlive : liveIn q = liveIn p)
    (hacking : q.writer.acking = p.writer.acking) (hhealthy : Healthy q ↔ Healthy p)
    (hformed : Formed q) (hcascade : Cascade q) :
    PipeInv extra { w with workers := some q } := by
  have hlive' : live { w with workers := some q } = live w := by
    rw [live_some hworkers, ← hlive]; rfl
  have hunacked : unacked { w with workers := some q } = unacked w := by
    rw [unacked_some hworkers, ← hacking]; rfl
  have hhealthy' : healthy { w with workers := some q } ↔ healthy w := by
    rw [healthy_some hworkers, ← hhealthy]; exact healthy_some rfl
  refine
    { reach := by rw [hlive']; exact h.reach
      line := ?_
      complete := fun hq => by rw [hlive']; exact h.complete (hhealthy'.1 hq)
      acked := ?_
      covered := by rw [hunacked]; exact h.covered
      exact := fun hq => by rw [hunacked]; exact h.exact (hhealthy'.1 hq)
      locked := h.locked
      ahead := h.ahead
      distinct := h.distinct
      nonempty := h.nonempty
      formed := fun r hr => Option.some.inj hr ▸ hformed
      cascade := fun r hr => Option.some.inj hr ▸ hcascade
      blameless := fun hq => h.blameless (hhealthy'.1 hq)
      barred := by rw [hlive']; exact h.barred }
  · have hline := h.line
    rwa [held_some hworkers, ← hheld] at hline
  · have hacked := h.acked
    rwa [acking_some hworkers, ← hacking] at hacked

/-- A thread fails: the line behind it is cut, what it held is lost. -/
theorem died (h : PipeInv extra w) (hworkers : w.workers = some p) {q : Workers}
    {lost : List Batch} (hheld : (heldBy q).Sublist (heldBy p)) (hlive : liveIn q <+: liveIn p)
    (hacking : q.writer.acking <:+ p.writer.acking) (hhealthy : ¬ Healthy q)
    (hlost : ∀ batch ∈ lost, (w.committed ++ liveIn q ++ [batch]).Sublist w.handed ∨
      liveIn q = [] ∧ batch ∈ p.writer.acking)
    (hformed : Formed q) (hcascade : Cascade q) :
    PipeInv extra { w with workers := some q, failed := w.failed ++ lost } := by
  have hunhealthy : ¬ healthy { w with workers := some q, failed := w.failed ++ lost } :=
    fun hq => hhealthy ((healthy_some rfl).1 hq)
  have hlive' : liveIn q <+: live w := by rwa [live_some hworkers]
  refine
    { reach := ((List.prefix_append_right_inj _).2 hlive').trans h.reach
      line := ?_
      complete := fun hq => absurd hq hunhealthy
      acked := ?_
      covered := ?_
      exact := fun hq => absurd hq hunhealthy
      locked := h.locked
      ahead := h.ahead
      distinct := h.distinct
      nonempty := h.nonempty
      formed := fun r hr => Option.some.inj hr ▸ hformed
      cascade := fun r hr => Option.some.inj hr ▸ hcascade
      blameless := fun hq => absurd hq hunhealthy
      barred := ?_ }
  · have hline := h.line
    rw [held_some hworkers] at hline
    exact (hheld.append_left _).trans hline
  · have hacked := h.acked
    rw [acking_some hworkers] at hacked
    exact hacking.trans hacked
  · intro batch hmem
    apply h.covered batch
    rw [unacked_some hworkers]
    obtain hmem | hmem := List.mem_append.1 hmem
    · exact List.mem_append_left _ (hacking.subset hmem)
    · exact List.mem_append_right _ hmem
  · intro i batch hget hmem
    obtain hold | hnew := List.mem_append.1 hmem
    · have hbound := h.barred i batch hget hold
      have hshorter : (liveIn q).length ≤ (live w).length := hlive'.length_le
      change w.committed.length + (liveIn q).length ≤ i + 1
      omega
    · change w.committed.length + (liveIn q).length ≤ i + 1
      obtain hsub | ⟨hnil, hack⟩ := hlost batch hnew
      · have hle := length_le_of_sublist hsub h.nodup_handed hget
        simp only [List.length_append] at hle
        omega
      · -- the writer failed after its commit: the batch is the last committed one
        have hacked := h.acked
        rw [acking_some hworkers] at hacked
        have hlast : (w.committed.dropLast ++ [batch]).Sublist w.handed := by
          cases hwriter : p.writer with
          | committed msg =>
              simp only [hwriter, WriterThread.acking] at hacked hack
              obtain ⟨init, hinit⟩ := hacked
              rw [List.mem_singleton.1 hack, ← hinit, List.dropLast_concat, hinit]
              exact h.committed_initial.sublist
          | _ => simp [hwriter, WriterThread.acking] at hack
        have hle := length_le_of_sublist hlast h.nodup_handed hget
        simp only [List.length_dropLast] at hle
        simp only [hnil, List.length_nil]
        omega

/-- Nothing but the threads, the set in flight and the history matters. -/
theorem frame (h : PipeInv extra w) {after : World} (hworkers : after.workers = w.workers)
    (hinFlight : after.inFlight = w.inFlight) (hhanded : after.handed = w.handed)
    (hcommitted : after.committed = w.committed) (hfailed : after.failed = w.failed) :
    PipeInv extra after := by
  obtain ⟨db, txn, inFlight, workers, handed, committed, failed, fed, highest⟩ := w
  obtain ⟨db', txn', inFlight', workers', handed', committed', failed', fed', highest'⟩ := after
  simp only at hworkers hinFlight hhanded hcommitted hfailed
  subst hworkers hinFlight hhanded hcommitted hfailed
  exact ⟨h.reach, h.line, h.complete, h.acked, h.covered, h.exact, h.locked,
    h.ahead, h.distinct, h.nonempty, h.formed, h.cascade, h.blameless, h.barred⟩

end PipeInv

/-! ## The parts of `Formed` and `Cascade` a thread's step touches -/

section Threads

variable {p : Workers}

theorem Formatted.congr {msg : WriterMsg} (h : Formatted p msg) {q : Workers}
    (hmode : q.mode = p.mode) (hnetwork : q.network = p.network) : Formatted q msg :=
  ⟨h.ids, by rw [hmode, hnetwork]; exact h.queries⟩

theorem Formed.setUtxo (h : Formed p) (cache : UtxoSetCache) {utxo : UtxoThread}
    (hfetching : ∀ batch fetch, utxo = .fetching batch fetch →
      fetch.txIds = txIdMapFromBlocks batch.blocks p.network)
    (hsend : ∀ msg, utxo = .send msg →
      msg.txIds = txIdMapFromBlocks msg.batch.blocks p.network) :
    Formed { p with utxoSetCache := cache, utxo := utxo } :=
  ⟨hfetching, hsend, h.queryFmtReceived, fun msg hmsg => (h.queryFmtSend msg hmsg).congr rfl rfl,
    fun msg hmsg => (h.writerReceived msg hmsg).congr rfl rfl,
    fun msg hmsg => (h.writerCommitted msg hmsg).congr rfl rfl⟩

theorem Formed.setQueryFmt (h : Formed p) {queryFmt : QueryFmtThread}
    (hreceived : ∀ msg, queryFmt = .received msg →
      msg.txIds = txIdMapFromBlocks msg.batch.blocks p.network)
    (hsend : ∀ msg, queryFmt = .send msg → Formatted p msg) :
    Formed { p with queryFmt := queryFmt } :=
  ⟨h.fetching, h.utxoSend, hreceived, fun msg hmsg => (hsend msg hmsg).congr rfl rfl,
    fun msg hmsg => (h.writerReceived msg hmsg).congr rfl rfl,
    fun msg hmsg => (h.writerCommitted msg hmsg).congr rfl rfl⟩

theorem Formed.setWriter (h : Formed p) {writer : WriterThread}
    (hreceived : ∀ msg, writer = .received msg → Formatted p msg)
    (hcommitted : ∀ msg, writer = .committed msg → Formatted p msg) :
    Formed { p with writer := writer } :=
  ⟨h.fetching, h.utxoSend, h.queryFmtReceived,
    fun msg hmsg => (h.queryFmtSend msg hmsg).congr rfl rfl,
    fun msg hmsg => (hreceived msg hmsg).congr rfl rfl,
    fun msg hmsg => (hcommitted msg hmsg).congr rfl rfl⟩

/-- A thread that has left its loop stays where it is, so exits below it stay justified. -/
theorem Cascade.setUtxo (h : Cascade p) (cache : UtxoSetCache) {utxo : UtxoThread}
    (hlive : p.utxo.exit = none) (hdone : utxo = .exited .ok → p.txOpen = false) :
    Cascade { p with utxoSetCache := cache, utxo := utxo } :=
  ⟨hdone, fun hexit => absurd (h.queryFmt hexit) (by simp [hlive]), h.writer⟩

theorem Cascade.setQueryFmt (h : Cascade p) {queryFmt : QueryFmtThread}
    (hlive : p.queryFmt.exit = none) (hdone : queryFmt = .exited .ok → p.utxo.exit.isSome) :
    Cascade { p with queryFmt := queryFmt } :=
  ⟨h.utxo, hdone, fun hexit => absurd (h.writer hexit) (by simp [hlive])⟩

theorem Cascade.setWriter (h : Cascade p) {writer : WriterThread}
    (hdone : writer = .exited .ok → p.queryFmt.exit.isSome) :
    Cascade { p with writer := writer } :=
  ⟨h.utxo, h.queryFmt, hdone⟩

end Threads

/-! ## One step of a worker -/

namespace PipeInv

variable {extra : List BlockHash} {w : World} {p : Workers}

theorem utxoDied (h : PipeInv extra w) (hworkers : w.workers = some p) {exit : Exit}
    (hexit : exit ≠ .ok) (hlive : p.utxo.exit = none) :
    PipeInv extra { w with
      workers := some { p with utxo := .exited exit }, failed := w.failed ++ p.utxo.held } := by
  have hline := h.line
  rw [held_some hworkers] at hline
  apply h.died hworkers (q := { p with utxo := .exited exit })
  · simp [heldBy]
  · cases hwriter : p.writer.exit <;> cases hqueryFmt : p.queryFmt.exit <;>
      simp [liveIn, hwriter, hqueryFmt]
  · exact List.suffix_refl _
  · intro hhealthy
    obtain hnone | hsome := hhealthy.1
    · simp at hnone
    · exact hexit (Option.some.inj hsome)
  · intro batch hmem
    apply Or.inl
    have hcut : (liveIn { p with utxo := .exited exit }).Sublist
        (p.writer.held ++ p.queryFmt.held) := by
      cases hwriter : p.writer.exit <;> cases hqueryFmt : p.queryFmt.exit <;>
        simp [liveIn, hwriter, hqueryFmt]
    have hsub := (hcut.append (List.singleton_sublist.2 hmem)).append_left w.committed
    rw [List.append_assoc]
    apply hsub.trans
    simpa [heldBy, List.append_assoc] using hline
  · exact (h.formed p hworkers).setUtxo p.utxoSetCache (by simp) (by simp)
  · exact (h.cascade p hworkers).setUtxo p.utxoSetCache hlive (by simp [hexit])

theorem queryFmtDied (h : PipeInv extra w) (hworkers : w.workers = some p) {exit : Exit}
    (hexit : exit ≠ .ok) (hlive : p.queryFmt.exit = none) :
    PipeInv extra { w with
      workers := some { p with queryFmt := .exited exit }
      failed := w.failed ++ p.queryFmt.held } := by
  have hline := h.line
  rw [held_some hworkers] at hline
  apply h.died hworkers (q := { p with queryFmt := .exited exit })
  · simp [heldBy]
  · cases hwriter : p.writer.exit <;> simp [liveIn, hwriter, hlive]
  · exact List.suffix_refl _
  · intro hhealthy
    obtain hnone | hsome := hhealthy.2.1
    · simp at hnone
    · exact hexit (Option.some.inj hsome)
  · intro batch hmem
    apply Or.inl
    have hcut : liveIn { p with queryFmt := .exited exit } = p.writer.held := by
      simp [liveIn]
    have hsub : (w.committed ++ p.writer.held ++ [batch]).Sublist
        (w.committed ++ heldBy p) := by
      rw [List.append_assoc]
      apply List.Sublist.append_left
      apply List.Sublist.append_left
      exact (List.singleton_sublist.2 hmem).trans (List.sublist_append_left _ _)
    rw [hcut]
    exact hsub.trans hline
  · exact (h.formed p hworkers).setQueryFmt (by simp) (by simp)
  · exact (h.cascade p hworkers).setQueryFmt hlive (by simp [hexit])

/-- The writer fails before its commit, losing what it holds, or after it. -/
theorem writerDied (h : PipeInv extra w) (hworkers : w.workers = some p) {e : Exit}
    (hexit : e ≠ .ok) :
    PipeInv extra { w with
      workers := some { p with writer := .exited e }
      failed := w.failed ++ (p.writer.held ++ p.writer.acking) } := by
  have hline := h.line
  rw [held_some hworkers] at hline
  apply h.died hworkers (q := { p with writer := .exited e })
  · simp [heldBy]
  · simp [liveIn]
  · simp
  · intro hhealthy
    obtain hnone | hsome := hhealthy.2.2
    · simp at hnone
    · exact hexit (Option.some.inj hsome)
  · intro batch hmem
    have hcut : liveIn { p with writer := .exited e } = [] := by simp [liveIn]
    obtain hheld | hacking := List.mem_append.1 hmem
    · apply Or.inl
      have hsub : (w.committed ++ [batch]).Sublist (w.committed ++ heldBy p) := by
        apply List.Sublist.append_left
        exact (List.singleton_sublist.2 hheld).trans (List.sublist_append_left _ _)
      rw [hcut, List.append_nil]
      exact hsub.trans hline
    · exact Or.inr ⟨hcut, hacking⟩
  · exact (h.formed p hworkers).setWriter (by simp) (by simp)
  · exact (h.cascade p hworkers).setWriter (by simp [hexit])

/-- A commit moves the oldest batch of the line over. -/
theorem commit (h : PipeInv extra w) (hworkers : w.workers = some p) {msg : WriterMsg}
    (hwriter : p.writer = .received msg) :
    PipeInv extra { w with
      workers := some { p with writer := .committed msg }
      committed := w.committed ++ [msg.batch] } := by
  have hlive : live w = msg.batch :: liveIn { p with writer := .committed msg } := by
    simp [live_some hworkers, liveIn, hwriter]
  have hheld : held w = msg.batch :: heldBy { p with writer := .committed msg } := by
    simp [held_some hworkers, heldBy, hwriter]
  have hacking : acking w = [] := by simp [acking_some hworkers, hwriter]
  have hreach : w.committed ++ [msg.batch] ++ liveIn { p with writer := .committed msg } =
      w.committed ++ live w := by simp [hlive]
  have hunacked : msg.batch :: w.handed.drop (w.committed ++ [msg.batch]).length =
      unacked w := by
    obtain ⟨rest, hrest⟩ := h.reach
    rw [unacked, hacking, List.nil_append, flight, ← hrest, hlive]
    simp
  have hhealthy : Healthy { p with writer := .committed msg } ↔ Healthy p := by
    simp [Healthy, hwriter]
  refine
    { reach := by
        change w.committed ++ [msg.batch] ++ liveIn _ <+: w.handed
        rw [hreach]
        exact h.reach
      line := ?_
      complete := fun hq => ?_
      acked := List.suffix_append _ _
      covered := fun batch hmem => h.covered batch (hunacked ▸ hmem)
      exact := fun hq id hid => ?_
      locked := h.locked
      ahead := h.ahead
      distinct := h.distinct
      nonempty := h.nonempty
      formed := fun r hr => Option.some.inj hr ▸ ?_
      cascade := fun r hr => Option.some.inj hr ▸ (h.cascade p hworkers).setWriter (by simp)
      blameless := fun hq => ?_
      barred := fun i batch hget hmem => ?_ }
  · have hline := h.line
    rw [hheld] at hline
    simpa [held] using hline
  · have hcomplete := h.complete ((healthy_some hworkers).2 (hhealthy.1 ((healthy_some rfl).1 hq)))
    rw [← hcomplete, ← hreach]
    rfl
  · have hexact := h.exact ((healthy_some hworkers).2 (hhealthy.1 ((healthy_some rfl).1 hq))) id hid
    rwa [← hunacked] at hexact
  · exact (h.formed p hworkers).setWriter (by simp) fun msg' hmsg => by
      obtain rfl : msg = msg' := by simpa using hmsg
      exact (h.formed p hworkers).writerReceived msg hwriter
  · exact h.blameless ((healthy_some hworkers).2 (hhealthy.1 ((healthy_some rfl).1 hq)))
  · have hbound := h.barred i batch hget hmem
    change (w.committed ++ [msg.batch]).length + (liveIn _).length ≤ i + 1
    rw [hlive, List.length_cons] at hbound
    rw [List.length_append, List.length_singleton]
    omega

/-- What is being acknowledged and what is behind it have no id in common. -/
theorem disjoint_unacked (h : PipeInv extra w) {batch : Batch} (hacking : acking w = [batch]) :
    ∀ later ∈ flight w, ∀ id ∈ later.ids, id ∉ batch.ids := by
  intro later hlater id hid hmem
  obtain ⟨init, hinit⟩ := h.acked
  obtain ⟨rest, hrest⟩ := h.committed_initial
  have hflight : flight w = rest := by
    rw [flight, ← hrest, List.drop_left]
  have hdistinct := h.distinct
  rw [← hrest, ← hinit, hacking, List.flatMap_append, List.flatMap_append] at hdistinct
  apply (List.nodup_append.1 hdistinct).2.2 id _ id _ rfl
  · simp [hmem]
  · rw [← hflight]
    exact List.mem_flatMap.2 ⟨later, hlater, hid⟩

/-- The ids of a committed batch leave the set together. -/
theorem acknowledge (h : PipeInv extra w) (hworkers : w.workers = some p) {msg : WriterMsg}
    (hwriter : p.writer = .committed msg) :
    PipeInv extra { w with
      workers := some { p with writer := .recv }, inFlight := w.inFlight \ msg.blockIds } := by
  have hids : msg.blockIds = msg.batch.ids.toFinset :=
    ((h.formed p hworkers).writerCommitted msg hwriter).ids
  have hacking : acking w = [msg.batch] := by simp [acking_some hworkers, hwriter]
  have hlive : live w = liveIn { p with writer := .recv } := by
    simp [live_some hworkers, liveIn, hwriter]
  have hheld : held w = heldBy { p with writer := .recv } := by
    simp [held_some hworkers, heldBy, hwriter]
  have hhealthy : Healthy { p with writer := .recv } ↔ Healthy p := by
    simp [Healthy, hwriter]
  have hlater : ∀ {q : World}, q.workers = some { p with writer := .recv } → healthy q →
      healthy w := fun hq hh => (healthy_some hworkers).2 (hhealthy.1 ((healthy_some hq).1 hh))
  refine
    { reach := by
        have hreach := h.reach
        rwa [hlive] at hreach
      line := by
        have hline := h.line
        rwa [hheld] at hline
      complete := fun hq => by
        have hcomplete := h.complete (hlater rfl hq)
        rwa [hlive] at hcomplete
      acked := List.nil_suffix
      covered := fun batch hmem id hid => ?_
      exact := fun hq id hid => ?_
      locked := fun id hid => ?_
      ahead := h.ahead
      distinct := h.distinct
      nonempty := h.nonempty
      formed := fun r hr => Option.some.inj hr ▸
        (h.formed p hworkers).setWriter (by simp) (by simp)
      cascade := fun r hr => Option.some.inj hr ▸ (h.cascade p hworkers).setWriter (by simp)
      blameless := fun hq => h.blameless (hlater rfl hq)
      barred := by
        have hbarred := h.barred
        rwa [hlive] at hbarred }
  · have hflight : batch ∈ flight w := hmem
    have hin : id ∈ w.inFlight := h.covered batch (List.mem_append_right _ hflight) id hid
    have hout := h.disjoint_unacked hacking batch hflight id hid
    simp [hids, hin, hout]
  · have hparts : id ∈ w.inFlight ∧ id ∉ msg.batch.ids := by simpa [hids] using hid
    obtain hextra' | ⟨batch, hmem, hin⟩ := h.exact (hlater rfl hq) id hparts.1
    · exact Or.inl hextra'
    · rw [unacked, hacking] at hmem
      obtain hmem | hmem := List.mem_append.1 hmem
      · exact absurd (List.mem_singleton.1 hmem ▸ hin) hparts.2
      · exact Or.inr ⟨batch, hmem, hin⟩
  · have hmem : msg.batch ∈ w.handed := by
      have hacked := h.acked
      rw [hacking] at hacked
      exact h.committed_initial.subset (hacked.subset (by simp))
    have hout : id ∉ msg.batch.ids := fun hin =>
      h.ahead id hid (List.mem_flatMap.2 ⟨msg.batch, hmem, hin⟩)
    simp [hids, hout, h.locked id hid]

theorem blockIds_subset (h : PipeInv extra w) (hworkers : w.workers = some p) {msg : WriterMsg}
    (hwriter : p.writer = .committed msg) : msg.blockIds ⊆ w.inFlight := by
  intro id hid
  rw [((h.formed p hworkers).writerCommitted msg hwriter).ids] at hid
  apply h.covered msg.batch _ id (List.mem_toFinset.1 hid)
  simp [unacked_some hworkers, hwriter]

theorem step (h : PipeInv extra w) (event : WorkerEvent) : PipeInv extra (w.step event) := by
  cases hworkers : w.workers with
  | none => rwa [step_none hworkers]
  | some p =>
      have hformed := h.formed p hworkers
      have hcascade := h.cascade p hworkers
      have htransition := transition_step hworkers event
      generalize w.step event = after at htransition
      cases htransition with
      | stay => exact h
      | utxoDone hrecv htx =>
          exact h.silent hworkers (by simp [heldBy, hrecv]) (by simp [liveIn, hrecv]) rfl
            (by simp [Healthy, hrecv, sound])
            (hformed.setUtxo p.utxoSetCache (by simp) (by simp))
            (hcascade.setUtxo p.utxoSetCache (by simp [hrecv]) fun _ => htx)
      | utxoDied fails exit hexit hlive => exact h.utxoDied hworkers hexit hlive
      | blocksProcessed batch consumed hreceived hlocal =>
          exact h.silent hworkers (by simp [heldBy, hreceived]) (by simp [liveIn, hreceived]) rfl
            (by simp [Healthy, hreceived])
            (hformed.setUtxo consumed.cache (by
              intro batch' fetch hfetching
              obtain ⟨rfl, rfl⟩ := UtxoThread.fetching.inj hfetching
              rfl) (by simp))
            (hcascade.setUtxo consumed.cache (by simp [hreceived]) (by simp))
      | chunkFetched batch fetch chunk queries hfetching hqueries =>
          exact h.silent hworkers (by simp [heldBy, hfetching]) (by simp [liveIn, hfetching]) rfl
            (by simp [Healthy, hfetching])
            (hformed.setUtxo p.utxoSetCache (by
              intro batch' fetch' hfetching'
              obtain ⟨rfl, rfl⟩ := UtxoThread.fetching.inj hfetching'
              exact hformed.fetching batch fetch hfetching) (by simp))
            (hcascade.setUtxo p.utxoSetCache (by simp [hfetching]) (by simp))
      | fetched batch fetch hfetching hqueries hall =>
          exact h.silent hworkers (by simp [heldBy, hfetching]) (by simp [liveIn, hfetching]) rfl
            (by simp [Healthy, hfetching])
            (hformed.setUtxo p.utxoSetCache (by simp) (by
              intro msg hmsg
              obtain rfl := UtxoThread.send.inj hmsg
              exact hformed.fetching batch fetch hfetching))
            (hcascade.setUtxo p.utxoSetCache (by simp [hfetching]) (by simp))
      | utxoSent msg hsend hrecv =>
          have hformed' : Formed { p with utxo := .recv } :=
            hformed.setUtxo p.utxoSetCache (by simp) (by simp)
          have hcascade' : Cascade { p with utxo := .recv } :=
            hcascade.setUtxo p.utxoSetCache (by simp [hsend]) (by simp)
          exact h.silent hworkers (by simp [heldBy, hsend, hrecv])
            (by simp [liveIn, hsend, hrecv]) rfl (by simp [Healthy, hsend, hrecv])
            (hformed'.setQueryFmt (by
              intro msg' hmsg
              obtain rfl := QueryFmtThread.received.inj hmsg
              exact hformed.utxoSend msg hsend) (by simp))
            (hcascade'.setQueryFmt (by simp [hrecv]) (by simp))
      | formatted msg queries height hreceived hqueries =>
          exact h.silent hworkers (by simp [heldBy, hreceived]) (by simp [liveIn, hreceived]) rfl
            (by simp [Healthy, hreceived])
            (hformed.setQueryFmt (by simp) (by
              intro msg' hmsg
              obtain rfl := QueryFmtThread.send.inj hmsg
              have hids := hformed.queryFmtReceived msg hreceived
              exact ⟨rfl, msg.inputsUtxoMap, hids ▸ hqueries⟩))
            (hcascade.setQueryFmt (by simp [hreceived]) (by simp))
      | queryFmtDone hrecv hutxo =>
          have hnone : p.utxo.held = [] := by
            cases hheld : p.utxo <;> simp_all
          exact h.silent hworkers (by simp [heldBy, hrecv]) (by simp [liveIn, hrecv, hnone]) rfl
            (by simp [Healthy, hrecv, sound])
            (hformed.setQueryFmt (by simp) (by simp))
            (hcascade.setQueryFmt (by simp [hrecv]) fun _ => hutxo)
      | queryFmtDied fails exit hexit hlive => exact h.queryFmtDied hworkers hexit hlive
      | queriesSent msg hsend hrecv =>
          have hformed' : Formed { p with queryFmt := .recv } :=
            hformed.setQueryFmt (by simp) (by simp)
          have hcascade' : Cascade { p with queryFmt := .recv } :=
            hcascade.setQueryFmt (by simp [hsend]) (by simp)
          exact h.silent hworkers (by simp [heldBy, hsend, hrecv])
            (by simp [liveIn, hsend, hrecv]) (by simp [hrecv]) (by simp [Healthy, hsend, hrecv])
            (hformed'.setWriter (by
              intro msg' hmsg
              obtain rfl := WriterThread.received.inj hmsg
              exact (hformed.queryFmtSend msg hsend).congr rfl rfl) (by simp))
            (hcascade'.setWriter (by simp))
      | committed msg db hreceived hexecute =>
          exact (h.commit hworkers hreceived).frame rfl rfl rfl rfl rfl
      | refused failAt msg transaction error hreceived herror =>
          have hdied := h.writerDied hworkers (e := .err error) (by simp)
          simp only [hreceived, WriterThread.held_eqs, WriterThread.acking_eqs,
            List.append_nil] at hdied
          exact hdied.frame rfl rfl rfl rfl rfl
      | acknowledged msg hcommitted hsubset =>
          exact h.acknowledge hworkers hcommitted
      | anyMissing msg hcommitted hsubset =>
          exact absurd (h.blockIds_subset hworkers hcommitted) hsubset
      | writerDone hrecv hqueryFmt =>
          have hnone : p.queryFmt.held = [] := by
            cases hheld : p.queryFmt <;> simp_all
          exact h.silent hworkers (by simp [heldBy, hrecv])
            (by simp [liveIn, hrecv, hnone, hqueryFmt]) (by simp [hrecv])
            (by simp [Healthy, hrecv, sound]) (hformed.setWriter (by simp) (by simp))
            (hcascade.setWriter fun _ => hqueryFmt)
      | writerDied count hheld hlive =>
          have hdied := h.writerDied hworkers (e := .err .failed) (by simp)
          rw [hheld, List.nil_append] at hdied
          exact hdied

end PipeInv

end BitcoinIndexer.Pipeline
