import Mathlib.Data.Prod.Lex
import BitcoinIndexer.Core.Finishing
import BitcoinIndexer.Pipeline.Accesses
import BitcoinIndexer.Pipeline.Transition

/-!
# The pipeline comes to rest

Every step of a worker that changes anything takes a batch one place further or ends a
thread, so workers that go on taking steps come to rest: each of them has ended, or the
first one waits for the caller.  A call that waits for a worker is let through then.
-/

namespace BitcoinIndexer.Pipeline

open BitcoinIndexer.Types
open BitcoinIndexer.Tables
open BitcoinIndexer.Worker
open BitcoinIndexer.Store
open BitcoinIndexer.FairRuns
open BitcoinIndexer.Interleaving

/-! ## How far the workers still have to go -/

/-- The steps of the batch a thread holds, in this thread and in those after it. -/
def utxoLeft : UtxoThread → ℕ
  | .recv => 1
  | .received _ => 10
  | .fetching _ _ => 9
  | .send _ => 8
  | .exited _ => 0

def queryFmtLeft : QueryFmtThread → ℕ
  | .recv => 1
  | .received _ => 6
  | .send _ => 5
  | .exited _ => 0

def writerLeft : WriterThread → ℕ
  | .recv => 1
  | .received _ => 3
  | .committed _ => 2
  | .exited _ => 0

def chunksLeft : UtxoThread → ℕ
  | .fetching _ fetch => fetch.queries.length
  | _ => 0

def left (p : Workers) : ℕ ×ₗ ℕ :=
  toLex (utxoLeft p.utxo + queryFmtLeft p.queryFmt + writerLeft p.writer, chunksLeft p.utxo)

def leftIn (w : World) : ℕ ×ₗ ℕ :=
  w.workers.elim (toLex (0, 0)) left

variable {w : World} {p : Workers}

theorem leftIn_some (hworkers : w.workers = some p) : leftIn w = left p := by
  simp [leftIn, hworkers]

theorem utxoLeft_pos {thread : UtxoThread} (h : thread.exit = none) : 0 < utxoLeft thread := by
  cases thread <;> simp_all [utxoLeft]

theorem queryFmtLeft_pos {thread : QueryFmtThread} (h : thread.exit = none) :
    0 < queryFmtLeft thread := by
  cases thread <;> simp_all [queryFmtLeft]

theorem writerLeft_pos {thread : WriterThread} (h : thread.exit = none) :
    0 < writerLeft thread := by
  cases thread <;> simp_all [writerLeft]

theorem left_lt {q : Workers} (h : utxoLeft q.utxo + queryFmtLeft q.queryFmt + writerLeft q.writer <
    utxoLeft p.utxo + queryFmtLeft p.queryFmt + writerLeft p.writer) : left q < left p :=
  Prod.Lex.toLex_lt_toLex.2 (.inl h)

/-- A step changes nothing or brings the workers nearer to rest. -/
theorem leftIn_step (w : World) (event : WorkerEvent) :
    w.step event = w ∨ leftIn (w.step event) < leftIn w := by
  cases hworkers : w.workers with
  | none => exact .inl (step_none hworkers event)
  | some p =>
      have htransition := transition_step hworkers event
      generalize w.step event = after at htransition
      rw [leftIn_some hworkers]
      cases htransition with
      | stay => exact .inl rfl
      | chunkFetched batch fetch chunk queries hfetching hqueries =>
          right
          exact Prod.Lex.toLex_lt_toLex.2 (.inr (by
            simp [utxoLeft, chunksLeft, hfetching, hqueries]))
      | utxoDied fails exit hexit hlive =>
          have hpos := utxoLeft_pos hlive
          exact .inr (left_lt (by simpa [utxoLeft] using hpos))
      | queryFmtDied fails exit hexit hlive =>
          have hpos := queryFmtLeft_pos hlive
          exact .inr (left_lt (by simpa [queryFmtLeft] using hpos))
      | writerDied count hwriter hlive =>
          have hpos := writerLeft_pos hlive
          exact .inr (left_lt (by simpa [writerLeft] using hpos))
      | _ => exact .inr (left_lt (by simp_all [utxoLeft, queryFmtLeft, writerLeft]))

/-! ## Who goes on -/

def threadOf : WorkerEvent → Thread
  | .utxo _ => .utxoFetching
  | .queryFmt _ => .queryFmt
  | .writer _ => .writer

/-- Whatever happens in its step, the thread does not stay where it is. -/
def GoesOn (w : World) (thread : Thread) : Prop :=
  ∀ event, threadOf event = thread → w.step event ≠ w

/-- What each thread waits for is there. -/
def UtxoReady (p : Workers) : Prop :=
  match p.utxo with
  | .recv => p.txOpen = false
  | .received _ | .fetching _ _ => True
  | .send _ => p.queryFmt.exit.isSome
  | .exited _ => False

def QueryFmtReady (p : Workers) : Prop :=
  match p.queryFmt with
  | .recv => p.utxo.exit.isSome ∨ ∃ msg, p.utxo = .send msg
  | .received _ => True
  | .send _ => p.writer.exit.isSome
  | .exited _ => False

def WriterReady (p : Workers) : Prop :=
  match p.writer with
  | .recv => p.queryFmt.exit.isSome ∨ ∃ msg, p.queryFmt = .send msg
  | .received _ | .committed _ => True
  | .exited _ => False

theorem goesOn_utxo (hworkers : w.workers = some p) (h : UtxoReady p) :
    GoesOn w .utxoFetching := by
  intro event hevent heq
  have hsame := congrArg World.workers heq
  cases event with
  | utxo fails =>
      simp only [World.step, hworkers, Option.some.injEq] at hsame
      have hthread := congrArg Workers.utxo hsame
      unfold UtxoReady at h
      cases hutxo : p.utxo with
      | recv =>
          have hclosed : p.txOpen = false := by simpa [hutxo] using h
          cases fails <;> simp [Workers.utxoStep, Workers.exitUtxo, hutxo, hclosed] at hthread
      | received batch =>
          cases fails with
          | true => simp [Workers.utxoStep, Workers.exitUtxo, hutxo] at hthread
          | false =>
              simp only [Workers.utxoStep, Workers.startProcessBlocks, Workers.exitUtxo,
                hutxo] at hthread
              split at hthread <;> cases hthread
      | fetching batch fetch =>
          cases fails with
          | true => simp [Workers.utxoStep, Workers.exitUtxo, hutxo] at hthread
          | false =>
              simp only [Workers.utxoStep, Workers.fetchStep, Workers.exitUtxo, hutxo] at hthread
              split at hthread
              · rename_i chunk queries hqueries
                have hfetch := congrArg chunksLeft hthread
                simp [chunksLeft, hqueries] at hfetch
              · split at hthread <;> cases hthread
      | send msg =>
          have hgone : p.queryFmt.exit.isSome = true := by simpa [hutxo] using h
          cases fails <;> simp [Workers.utxoStep, Workers.exitUtxo, hutxo, hgone] at hthread
      | exited exit => simp_all
  | _ => cases hevent

theorem goesOn_queryFmt (hworkers : w.workers = some p) (h : QueryFmtReady p) :
    GoesOn w .queryFmt := by
  intro event hevent heq
  have hsame := congrArg World.workers heq
  cases event with
  | queryFmt fails =>
      simp only [World.step, hworkers, Option.some.injEq] at hsame
      have hthread := congrArg Workers.queryFmt hsame
      unfold QueryFmtReady at h
      cases hqueryFmt : p.queryFmt with
      | recv =>
          rw [hqueryFmt] at h
          obtain hexit | ⟨msg, hsend⟩ := h
          · obtain ⟨exit, hutxo⟩ : ∃ exit, p.utxo = .exited exit := by
              cases hutxo : p.utxo <;> simp_all
            cases fails <;>
              simp [Workers.queryFmtStep, Workers.exitQueryFmt, hqueryFmt, hutxo] at hthread
          · cases fails <;>
              simp [Workers.queryFmtStep, Workers.exitQueryFmt, hqueryFmt, hsend] at hthread
      | received msg =>
          cases fails with
          | true => simp [Workers.queryFmtStep, Workers.exitQueryFmt, hqueryFmt] at hthread
          | false =>
              simp only [Workers.queryFmtStep, Workers.formatStep, Workers.exitQueryFmt,
                hqueryFmt] at hthread
              split at hthread
              · cases hthread
              · split at hthread <;> cases hthread
      | send msg =>
          have hgone : p.writer.exit.isSome = true := by simpa [hqueryFmt] using h
          cases fails <;>
            simp [Workers.queryFmtStep, Workers.exitQueryFmt, hqueryFmt, hgone] at hthread
      | exited exit => simp_all
  | _ => cases hevent

theorem goesOn_writer (hworkers : w.workers = some p) (h : WriterReady p) : GoesOn w .writer := by
  intro event hevent heq
  have hsame := congrArg World.workers heq
  cases event with
  | writer failAt =>
      have hthread := congrArg (Option.map Workers.writer) hsame
      simp only [World.step, hworkers, World.writerStep] at hthread
      unfold WriterReady at h
      cases hwriter : p.writer with
      | recv =>
          rw [hwriter] at h hthread
          obtain hexit | ⟨msg, hsend⟩ := h
          · obtain ⟨exit, hqueryFmt⟩ : ∃ exit, p.queryFmt = .exited exit := by
              cases hqueryFmt : p.queryFmt <;> simp_all
            cases failAt <;> simp [World.setWriter, hqueryFmt, hwriter] at hthread
          · cases failAt <;> simp [World.setWriter, hsend, hwriter] at hthread
      | received msg =>
          simp only [hwriter, World.commitStep] at hthread
          split at hthread <;> simp [World.setWriter, hwriter] at hthread
      | committed msg =>
          simp only [hwriter, World.ackStep] at hthread
          cases failAt with
          | some count => simp [World.setWriter, hwriter] at hthread
          | none =>
              simp only [Option.isSome_none, Bool.false_eq_true, if_false] at hthread
              split at hthread <;> simp [World.setWriter, hwriter] at hthread
      | exited exit => simp_all
  | _ => cases hevent

/-- Until all threads have ended, or the first one waits for the caller, one goes on. -/
theorem exists_goesOn (hworkers : w.workers = some p) (hopen : p.txOpen = false ∨ p.utxo ≠ .recv)
    (hlive : p.utxo.exit = none ∨ p.queryFmt.exit = none ∨ p.writer.exit = none) :
    ∃ thread, GoesOn w thread := by
  have hready : UtxoReady p ∨ QueryFmtReady p ∨ WriterReady p := by
    unfold UtxoReady QueryFmtReady WriterReady
    cases hutxo : p.utxo <;> cases hqueryFmt : p.queryFmt <;> cases hwriter : p.writer <;>
      simp_all
  obtain h | h | h := hready
  · exact ⟨_, goesOn_utxo hworkers h⟩
  · exact ⟨_, goesOn_queryFmt hworkers h⟩
  · exact ⟨_, goesOn_writer hworkers h⟩

/-! ## Waiting for a worker -/

/-- The first thread waits for the caller or has ended. -/
def Receives (w : World) : Prop := ∀ p, w.workers = some p → p.utxo = .recv ∨ p.utxo.exit.isSome

def Closed (w : World) : Prop := ∀ p, w.workers = some p → p.txOpen = false

def HasEnded (thread : Thread) (w : World) : Prop :=
  ∀ p, w.workers = some p → (exitOf thread p).isSome

theorem Receives.step (h : Receives w) (event : WorkerEvent) : Receives (w.step event) := by
  cases hworkers : w.workers with
  | none => rwa [step_none hworkers]
  | some p =>
      have hp := h p hworkers
      have htransition := transition_step hworkers event
      generalize w.step event = after at htransition
      cases htransition with
      | stay => exact h
      | _ =>
          intro q hq
          obtain rfl := Option.some.inj hq
          simp_all

theorem Closed.step (h : Closed w) (event : WorkerEvent) : Closed (w.step event) := by
  cases hworkers : w.workers with
  | none => rwa [step_none hworkers]
  | some p =>
      have hp := h p hworkers
      have htransition := transition_step hworkers event
      generalize w.step event = after at htransition
      cases htransition with
      | stay => exact h
      | _ =>
          intro q hq
          obtain rfl := Option.some.inj hq
          exact hp

/-- A thread that has ended stays so. -/
theorem HasEnded.step {thread : Thread} (h : HasEnded thread w) (event : WorkerEvent) :
    HasEnded thread (w.step event) := by
  cases hworkers : w.workers with
  | none => rwa [step_none hworkers]
  | some p =>
      have hp := h p hworkers
      have htransition := transition_step hworkers event
      generalize w.step event = after at htransition
      cases htransition with
      | stay => exact h
      | _ =>
          intro q hq
          obtain rfl := Option.some.inj hq
          cases thread <;> simp_all [exitOf]

/-- Each of the three threads takes a step again and again. -/
def FairWorkers (events : ℕ → Option WorkerEvent) : Prop :=
  ∀ thread time, ∃ later, time ≤ later ∧ ∃ event, events later = some event ∧ threadOf event = thread

/-- Where something goes on as long as the goal is not reached, it is reached. -/
def resting (inv goal : World → Prop) (hkept : ∀ w event, inv w → inv (w.step event))
    (hbusy : ∀ w, inv w → ¬ goal w → ∃ thread, GoesOn w thread) :
    Progress system.drift (Option.map threadOf) (fun _ thread => thread.isSome = true)
      (fun _ _ => True) inv goal (ℕ ×ₗ ℕ) where
  rank := leftIn
  helps := fun w helper => ∃ thread, helper = some thread ∧ GoesOn w thread
  someone := by
    intro w hinv hgoal
    obtain ⟨thread, hgoes⟩ := hbusy w hinv hgoal
    exact ⟨some thread, thread, rfl, hgoes⟩
  living := by
    rintro w _ _ _ ⟨thread, rfl, -⟩
    rfl
  kept := by
    intro w event hinv _ _
    cases event with
    | none => exact hinv
    | some event => exact hkept w event hinv
  steady := by
    intro w event _ _ _
    cases event with
    | none => exact .inr ⟨rfl, fun _ _ h => h⟩
    | some event =>
        obtain hsame | hlt := leftIn_step w event
        · exact .inr ⟨congrArg leftIn hsame, fun _ _ h => by
            rwa [show system.drift w (some event) = w from hsame]⟩
        · exact .inl hlt
  falls := by
    rintro w event _ _ _ ⟨thread, hthread, hgoes⟩
    cases event with
    | none => cases hthread
    | some event =>
        exact (leftIn_step w event).resolve_left (hgoes event (Option.some.inj hthread))

theorem FairWorkers.fair {events : ℕ → Option WorkerEvent} (h : FairWorkers events) (w : World) :
    Fair system.drift (Option.map threadOf) (fun _ thread => thread.isSome = true) w events := by
  intro helper time
  cases helper with
  | none => exact ⟨time, le_rfl, fun hsome => by cases hsome⟩
  | some thread =>
      obtain ⟨later, hle, event, hevent, hthread⟩ := h thread time
      exact ⟨later, hle, fun _ => by rw [hevent, Option.map_some, hthread]⟩

/-- A goal that the workers reach and do not leave again. -/
theorem FairWorkers.settles {events : ℕ → Option WorkerEvent} (h : FairWorkers events)
    (inv goal : World → Prop) (hkept : ∀ w event, inv w → inv (w.step event))
    (hbusy : ∀ w, inv w → ¬ goal w → ∃ thread, GoesOn w thread)
    (hstays : ∀ w event, goal w → goal (w.step event)) (hinv : inv w) :
    ∃ time, ∀ later, time ≤ later → goal (runTo system.drift w events later) := by
  have hstart : inv (runTo system.drift w events 0) := hinv
  obtain ⟨time, -, hgoal⟩ := (resting inv goal hkept hbusy).eventually (h.fair w)
    (fun _ _ => trivial) le_rfl hstart
  refine ⟨time, fun later hle => ?_⟩
  induction later, hle using Nat.le_induction with
  | base => exact hgoal
  | succ later _ ih =>
      rw [runTo]
      cases events later with
      | none => exact ih
      | some event => exact hstays _ event ih

/-- A thread is joined only when it has been told that nothing more comes. -/
def Joinable (γ : Type) (access : Act γ) (w : World) : Prop :=
  match access with
  | .join _ => Closed w
  | _ => True

theorem not_blocked_send {batch : Batch} (h : Receives w) : ¬ system.Blocked (.send batch) w := by
  rintro ⟨fails, hblocked⟩
  simp only [system, systemOf_exec, exec, sendTo] at hblocked
  cases hworkers : w.workers with
  | none => simp [hworkers] at hblocked
  | some p =>
      have hp := h p hworkers
      cases hutxo : p.utxo <;> simp_all

theorem not_blocked_join {thread : Thread} (h : HasEnded thread w) :
    ¬ system.Blocked (.join thread) w := by
  rintro ⟨fails, hblocked⟩
  simp only [system, systemOf_exec, exec, joinThread] at hblocked
  cases hworkers : w.workers with
  | none => simp [hworkers] at hblocked
  | some p =>
      obtain ⟨exit, hexit⟩ := Option.isSome_iff_exists.1 (h p hworkers)
      rw [hworkers] at hblocked
      cases exit <;> simp [hexit] at hblocked

/-- Neither a batch to send nor the end of a thread is waited for in vain. -/
theorem exists_goesOn_of_send (h : ¬ Receives w) : ∃ thread, GoesOn w thread := by
  obtain ⟨p, hp⟩ := not_forall.1 h
  obtain ⟨hworkers, hne⟩ := Classical.not_imp.1 hp
  obtain ⟨hrecv, hlive⟩ := not_or.1 hne
  exact exists_goesOn hworkers (.inr hrecv) (.inl (by simpa using hlive))

theorem exists_goesOn_of_join {thread : Thread} (hclosed : Closed w) (h : ¬ HasEnded thread w) :
    ∃ thread, GoesOn w thread := by
  obtain ⟨p, hp⟩ := not_forall.1 h
  obtain ⟨hworkers, hlive⟩ := Classical.not_imp.1 hp
  apply exists_goesOn hworkers (.inl (hclosed p hworkers))
  cases thread <;> simp_all [exitOf]

/-- The accesses that wait for a worker. -/
def Waits {γ : Type} : Act γ → Prop
  | .send _ | .join _ => True
  | _ => False

theorem not_blocked_of_not_waits {γ : Type} {access : Act γ} (h : ¬ Waits access) :
    ¬ system.Blocked access w := by
  rintro ⟨fails, hblocked⟩
  rw [system, systemOf_exec] at hblocked
  cases access with
  | send | join => exact h trivial
  | _ =>
      cases fails <;> simp only [exec, execSelect, execStatement, execTrans] at hblocked <;>
        (repeat' split at hblocked) <;> cases hblocked

theorem letsThrough : system.LetsThrough Joinable FairWorkers := by
  intro γ access w events hjoinable hfair
  cases access with
  | send batch =>
      obtain ⟨time, hfree⟩ := hfair.settles (fun _ => True) Receives
        (fun _ _ h => h) (fun _ _ => exists_goesOn_of_send) (fun _ event h => h.step event) trivial
      exact ⟨time, fun later hle => not_blocked_send (hfree later hle)⟩
  | join thread =>
      obtain ⟨time, hfree⟩ := hfair.settles Closed (HasEnded thread)
        (fun _ event h => h.step event) (fun _ => exists_goesOn_of_join)
        (fun _ event h => h.step event) hjoinable
      exact ⟨time, fun later hle => not_blocked_join (hfree later hle)⟩
  | _ => exact ⟨0, fun later _ => not_blocked_of_not_waits id⟩

end BitcoinIndexer.Pipeline
