import BitcoinIndexer.Modes.AtHead
import BitcoinIndexer.Process.Refinement

/-!
# What the process asks of its store

Seen from the store the process is a caller that makes one call after the other, whatever
the node answers.
-/

namespace BitcoinIndexer.Process

open BitcoinIndexer.Types
open BitcoinIndexer.Worker
open BitcoinIndexer.Store
open BitcoinIndexer.Node
open BitcoinIndexer.Schedules
open BitcoinIndexer.AtHead
open BitcoinIndexer.Interleaving

variable {p : Indexer} {event : Event} {client : Client} {head : BlockHeight}

/-- What a step of the process is for its store, unless it opens it or inserts a block. -/
inductive Reads (c : StoreConfig) : StoreConfig → Prop where
  | nothing : Reads c c
  | access (fails : Bool) : Reads c (system.next (.step fails) c)
  | worker (event : WorkerEvent) : Reads c (system.next (.other event) c)
  | getHashByHeight (hreturned : c.prog = .pure ()) (height : BlockHeight) :
      Reads c (system.next (.call (.getHashByHeight height)) c)

inductive Asks (c : StoreConfig) : StoreConfig → Prop where
  | reads {after : StoreConfig} (hreads : Reads c after) : Asks c after
  | insert (hreturned : c.prog = .pure ()) (block : BlockData) :
      Asks c (system.next (.call (.insert block)) c)

theorem config_of_returned (hreturned : p.remaining = .pure ()) :
    p.config = ⟨p.db, p.shared, .pure ()⟩ :=
  congrArg (Config.mk p.db p.shared) hreturned

theorem reads_proceed {α : Type} {prog : StoreM α} {stage : StoreM α → Stage} (fails : Bool)
    (hstage : ∀ (q : Indexer) (rest : StoreM α), q.stage = stage rest → q.remaining = rest.forget)
    (hprog : p.stage = stage prog) : Reads p.config (p.proceed fails prog stage).config := by
  have hbefore : p.config = ⟨p.db, p.shared, prog.forget⟩ :=
    congrArg (Config.mk p.db p.shared) (hstage p prog hprog)
  have hafter : (p.proceed fails prog stage).config = system.next (.step fails) p.config := by
    rw [hbefore, System.next, System.advance_forget]
    exact congrArg (Config.mk _ _) (hstage _ _ rfl)
  rw [hafter]
  exact .access fails

theorem reads_run (hreturned : p.remaining = .pure ()) : Reads p.config p.run.config := by
  have hbefore := config_of_returned hreturned
  have hsame : Reads p.config ⟨p.db, p.shared, .pure ()⟩ := hbefore ▸ .nothing
  unfold Indexer.run
  split
  · exact hsame
  · split
    · rename_i last _ _
      have hasked : (p.call (getHashByHeight (last - 100)) (.asking (last - 100))).config =
          system.next (.call (.getHashByHeight (last - 100))) p.config := by
        have hsettle := (getHashByHeight (last - 100)).settle_forget p.db
        rw [hbefore]
        simp only [System.next, system, systemOf, body, Prog.bind_eq, Prog.pure_eq, enter]
        rw [← Prog.forget, hsettle]
        rfl
      rw [hasked]
      exact .getHashByHeight hreturned (last - 100)
    · exact hsame

/-- Without a block nothing is inserted. -/
theorem reads_fetch (hreturned : p.remaining = .pure ()) {prefetcher : Node.State BlockHash Block}
    (hnothing : (prefetcher.step
      (if prefetcher.phase = .idle then .next else .consumer)).yielded = prefetcher.yielded) :
    Reads p.config (p.fetch prefetcher).config := by
  have hbefore := config_of_returned hreturned
  simp only [Indexer.fetch, hnothing, List.getElem?_eq_none le_rfl]
  exact hbefore ▸ .nothing

theorem asks_fetch (hreturned : p.remaining = .pure ()) (prefetcher : Node.State BlockHash Block) :
    Asks p.config (p.fetch prefetcher).config := by
  have hbefore := config_of_returned hreturned
  simp only [Indexer.fetch]
  split
  · exact .reads (hbefore ▸ .nothing)
  · rename_i item _
    have hinserted : ∀ prefetcher, (p.processBlock prefetcher (blockData item.block)).config =
        system.next (.call (.insert (blockData item.block))) p.config := by
      intro prefetcher
      rw [hbefore]
      rfl
    rw [hinserted]
    exact .insert hreturned _

/-- Only between two blocks the main thread inserts one. -/
theorem reads_main (hbusy : p.stage.waits = false) (fails : Bool) (client : Client) :
    Reads p.config (p.mainStep fails client).config := by
  unfold Indexer.mainStep
  cases hstage : p.stage with
  | down => exact .nothing
  | failed fault => exact .nothing
  | fetching prefetcher => rw [hstage] at hbusy; cases hbusy
  | starting start =>
      have hreturned : p.remaining = .pure () := by simp only [Indexer.remaining, hstage]
      simp only [Indexer.startPrefetcher]
      split
      · exact .nothing
      · exact config_of_returned hreturned ▸ .nothing
  | opening prog =>
      simp only
      split
      · rename_i hreturned
        apply reads_run
        simp only [Indexer.remaining, hstage, Prog.eq_pure_of_returned hreturned]
      · exact reads_proceed fails (fun q rest hq => by
          simp only [Indexer.remaining, hq, Prog.forget_unit]) hstage
  | asking height prog =>
      simp only
      split
      · rename_i answer hreturned
        have hdone : p.remaining = .pure () := by
          simp only [Indexer.remaining, hstage, Prog.eq_pure_of_returned hreturned, Prog.forget_pure]
        cases answer <;> exact config_of_returned hdone ▸ .nothing
      · exact reads_proceed fails (fun q rest hq => by simp only [Indexer.remaining, hq]) hstage
  | inserting prefetcher prog =>
      simp only
      split
      · rename_i hreturned
        have hdone : p.remaining = .pure () := by
          simp only [Indexer.remaining, hstage, Prog.eq_pure_of_returned hreturned]
        exact config_of_returned hdone ▸ .nothing
      · exact reads_proceed fails (fun q rest hq => by
          simp only [Indexer.remaining, hq, Prog.forget_unit]) hstage

theorem asks_main (p : Indexer) (fails : Bool) (client : Client) :
    Asks p.config (p.mainStep fails client).config := by
  cases hbusy : p.stage.waits with
  | false => exact .reads (reads_main hbusy fails client)
  | true =>
      cases hstage : p.stage with
      | fetching prefetcher =>
          simp only [Indexer.mainStep, hstage]
          exact asks_fetch (by simp only [Indexer.remaining, hstage]) prefetcher
      | _ => rw [hstage] at hbusy; cases hbusy

theorem config_prefetch (p : Indexer) (index : ℕ) (client : Client) :
    (p.prefetchStep index client).config = p.config := by
  obtain ⟨threadNum, height, db, w, stage⟩ := p
  cases stage <;> rfl

theorem asks_step (hgoes : event.starts = false) : Asks p.config (p.step event).config := by
  cases event with
  | start threadNum client => cases hgoes
  | main fails client => exact asks_main p fails client
  | pipeline event => exact .reads (.worker event)
  | prefetch index client =>
      rw [Indexer.step, config_prefetch]
      exact .reads .nothing

/-! ## Nothing waits at the head -/

theorem Asks.readying {before after : StoreConfig} (hasks : Asks before after)
    (h : Readying head before) : Readying head after := by
  cases hasks with
  | insert hreturned block => exact h.insert hreturned block
  | reads hreads =>
      cases hreads with
      | nothing => exact h
      | access fails => exact h.step fails
      | worker event => exact h.interfere event
      | getHashByHeight hreturned height => exact h.getHashByHeight hreturned height

theorem readying_started (h : Readying head p.config) (threadNum : ℕ) {height : ℕ}
    {network : Network} (hcount : client.getBlockCount = .ok height)
    (hnetwork : client.network = some network) :
    Readying height (p.start threadNum client).config := by
  have hnext := h.start height network (resumed p.shared.db.chain.length)
  simp only [Indexer.start, hcount, hnetwork]
  exact hnext

theorem readying_start (h : Readying head p.config) (threadNum : ℕ) (client : Client) :
    ∃ head, Readying head (p.start threadNum client).config := by
  cases hcount : client.getBlockCount with
  | error error =>
      simp only [Indexer.start, hcount]
      exact ⟨head, h⟩
  | ok height =>
      cases hnetwork : client.network with
      | none =>
          simp only [Indexer.start, hcount, hnetwork]
          exact ⟨head, h⟩
      | some network => exact ⟨height, readying_started h threadNum hcount hnetwork⟩

theorem readying_step (h : Readying head p.config) (event : Event) :
    ∃ head, Readying head (p.step event).config := by
  cases event with
  | start threadNum client => exact readying_start h threadNum client
  | main fails client => exact ⟨head, (asks_main p fails client).readying h⟩
  | prefetch index client =>
      have hasks : Asks p.config (p.step (.prefetch index client)).config := asks_step rfl
      exact ⟨head, hasks.readying h⟩
  | pipeline event => exact ⟨head, h.interfere event⟩

/-- Whatever the node answers, and with however many processes before. -/
theorem readying_runFrom (events : List Event) :
    ∃ head, Readying head (Indexer.initial.runFrom events).config := by
  induction events using List.reverseRecOn with
  | nil => exact ⟨0, trivial⟩
  | append_singleton events event ih =>
      rw [Indexer.runFrom, List.foldl_append]
      obtain ⟨head, hready⟩ := ih
      exact readying_step hready event

end BitcoinIndexer.Process
