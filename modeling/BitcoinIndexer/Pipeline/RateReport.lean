import Mathlib.Data.Finset.Card
import BitcoinIndexer.Pipeline.Order

/-!
# The rate report of the writer

Between the commit of a batch and the removal of its ids from `in_flight` the writer reports
how many blocks and transactions it wrote in a second.  It divides by the milliseconds since its
last report: the pipeline is run here with the clock it reads.
-/

namespace BitcoinIndexer.RateReport

open Relation
open BitcoinIndexer.Types
open BitcoinIndexer.Tables
open BitcoinIndexer.Worker
open BitcoinIndexer.Store
open BitcoinIndexer.Pipeline
open BitcoinIndexer.PipelineOrder
open BitcoinIndexer.Interleaving

/-! ## The arithmetic -/

inductive ReportPanic where
  | overflow
  | divideByZero
  deriving DecidableEq

/-- The number of `u64` values. -/
def u64Size : ℕ := 2 ^ 64

def checked (value : ℕ) : Except ReportPanic ℕ :=
  if value < u64Size then .ok value else .error .overflow

def divide (left right : ℕ) : Except ReportPanic ℕ :=
  if right = 0 then .error .divideByZero else .ok (left / right)

/-- `Duration::as_secs`, of a duration in nanoseconds. -/
def asSecs (duration : ℕ) : ℕ := duration / 10 ^ 9

/-- `Duration::subsec_millis` -/
def subsecMillis (duration : ℕ) : ℕ := duration % 10 ^ 9 / 10 ^ 6

def asMillis (duration : ℕ) : ℕ := duration / 10 ^ 6

/-- `duration.as_secs() as u64 * 1000 + u64::from(duration.subsec_millis())` -/
def millis (duration : ℕ) : Except ReportPanic ℕ :=
  match checked (asSecs duration * 1000) with
  | .error reason => .error reason
  | .ok secs => checked (secs + subsecMillis duration)

def rate (count duration : ℕ) : Except ReportPanic ℕ :=
  match checked (count * 1000) with
  | .error reason => .error reason
  | .ok product =>
      match millis duration with
      | .error reason => .error reason
      | .ok divisor => divide product divisor

/-- "Block {}H fully indexed and commited; {}block/s; {}tx/s" -/
def report (msg : WriterMsg) (duration : ℕ) : Except ReportPanic (BlockHeight × ℕ × ℕ) :=
  match rate msg.blockIds.card duration with
  | .error reason => .error reason
  | .ok blockRate =>
      match rate msg.txLen duration with
      | .error reason => .error reason
      | .ok txRate => .ok (msg.maxBlockHeight, blockRate, txRate)

/-- A batch that fits in memory. -/
def Fits (msg : WriterMsg) : Prop :=
  msg.blockIds.card * 1000 < u64Size ∧ msg.txLen * 1000 < u64Size

/-- At least one millisecond, and no more of them than a `u64` can count. -/
def InTime (duration : ℕ) : Prop := 1 ≤ asMillis duration ∧ asMillis duration < u64Size

instance (duration : ℕ) : Decidable (InTime duration) :=
  inferInstanceAs (Decidable (_ ∧ _))

theorem secs_add_millis (duration : ℕ) :
    asSecs duration * 1000 + subsecMillis duration = asMillis duration := by
  rw [asSecs, subsecMillis, asMillis]
  omega

theorem millis_eq (duration : ℕ) : millis duration = checked (asMillis duration) := by
  have hsum := secs_add_millis duration
  by_cases hsecs : asSecs duration * 1000 < u64Size
  · rw [millis, checked, if_pos hsecs]
    change checked _ = _
    rw [hsum]
  · have hlong : ¬ asMillis duration < u64Size := by omega
    rw [millis, checked, if_neg hsecs, checked, if_neg hlong]

theorem rate_isOk_iff {count duration : ℕ} (hcount : count * 1000 < u64Size) :
    (∃ value, rate count duration = .ok value) ↔ InTime duration := by
  rw [rate, checked, if_pos hcount, millis_eq, checked, InTime]
  have hpos : 0 < u64Size := by simp [u64Size]
  by_cases hlong : asMillis duration < u64Size
  · by_cases hzero : asMillis duration = 0
    · simp [hpos, hzero, divide]
    · simp [hlong, hzero, divide, Nat.one_le_iff_ne_zero]
  · simp [hlong]

/-- The report of a batch that fits goes through exactly where the time suits it. -/
theorem report_isOk_iff {msg : WriterMsg} (hfits : Fits msg) (duration : ℕ) :
    (∃ value, report msg duration = .ok value) ↔ InTime duration := by
  have hblocks : _ ↔ InTime duration := rate_isOk_iff hfits.1
  have htxs : _ ↔ InTime duration := rate_isOk_iff hfits.2
  constructor
  · rintro ⟨value, hvalue⟩
    apply hblocks.1
    cases hrate : rate msg.blockIds.card duration with
    | error reason => simp [report, hrate] at hvalue
    | ok blockRate => exact ⟨blockRate, rfl⟩
  · intro h
    obtain ⟨blockRate, hblockRate⟩ := hblocks.2 h
    obtain ⟨txRate, htxRate⟩ := htxs.2 h
    exact ⟨_, by simp only [report, hblockRate, htxRate]; rfl⟩

/-! ## The pipeline with a clock -/

/-- A report: the batch, the time since the one before, and whether it panicked. -/
structure Report where
  msg : WriterMsg
  duration : ℕ
  panicked : Bool

/-- The clock, what the writer has read last, and the reports made so far. -/
structure Timed where
  world : World
  now : ℕ
  prevTime : ℕ
  reports : List Report

inductive TimedEvent where
  | worker (event : WorkerEvent)
  | tick (nanos : ℕ)

/-- The batch the writer is about to report on. -/
def committedMsg (w : World) : Option WriterMsg :=
  w.workers.bind fun p =>
    match p.writer with
    | .committed msg => some msg
    | _ => none

def panics (msg : WriterMsg) (duration : ℕ) : Bool :=
  match report msg duration with
  | .error _ => true
  | .ok _ => false

/-- The step after a commit: a report that panics ends the thread, else the ids of the batch
are removed from `in_flight`. -/
def Timed.reportStep (msg : WriterMsg) (t : Timed) : Timed :=
  { t with
    world := t.world.step (.writer (if panics msg (t.now - t.prevTime) then some 0 else none))
    prevTime := t.now
    reports := t.reports ++
      [⟨msg, t.now - t.prevTime, panics msg (t.now - t.prevTime)⟩] }

def Timed.step : TimedEvent → Timed → Timed
  | .tick nanos, t => { t with now := t.now + nanos }
  | .worker (.writer none), t =>
      match committedMsg t.world with
      | some msg => t.reportStep msg
      | none => { t with world := t.world.step (.writer none) }
  | .worker event, t => { t with world := t.world.step event }

/-- A new writer reads the clock. -/
def startsWriter : {β : Type} → Act β → Bool
  | _, .spawn _ _ => true
  | _, _ => false

def timedExec {β : Type} (access : Act β) (fails : Bool) (t : Timed) : Effect Timed Halt β :=
  (exec access fails t.world).map fun w =>
    { t with world := w, prevTime := if startsWriter access then t.now else t.prevTime }

def timed : System Act IndexerStore Halt Timed TimedEvent Operation where
  exec := timedExec
  interfere := Timed.step
  enter := fun _ t => t
  body := operationBody

def timely : Discipline Act IndexerStore Halt Timed TimedEvent Operation where
  event := fun _ _ => True
  access := fun _ _ _ => True
  call := fun operation c => driven.call operation (c.map Timed.world)

def readyAt (now : ℕ) (store : IndexerStore) (db : Db) : Config Act IndexerStore Halt Timed :=
  ⟨store, ⟨World.over db, now, now, []⟩, .pure ()⟩

variable {t : Timed} {msg : WriterMsg} {p : Workers}

theorem env_step (event : WorkerEvent) (w : World) :
    ReflTransGen (driven.Env driver) w (w.step event) :=
  .single ⟨event, trivial, rfl⟩

/-- Without the clock it is the pipeline: a report that panics is a failure of the writer. -/
theorem forgets_clock : Forgets timed timely driver driven Timed.world where
  body := fun _ => rfl
  enter := fun _ _ => rfl
  exec := by
    intro γ access fails t
    change exec access fails t.world = ((exec access fails t.world).map _).map _
    cases exec access fails t.world <;> rfl
  event := by
    intro event t _
    cases event with
    | tick nanos => exact .refl
    | worker event =>
        cases event with
        | utxo fails => exact env_step (.utxo fails) t.world
        | queryFmt fails => exact env_step (.queryFmt fails) t.world
        | writer failAt =>
            cases failAt with
            | some count => exact env_step (.writer (some count)) t.world
            | none =>
                change ReflTransGen _ _ (Timed.world (t.step (.worker (.writer none))))
                rw [Timed.step]
                cases committedMsg t.world with
                | none => exact env_step (.writer none) t.world
                | some msg => exact env_step (.writer _) t.world
  access := fun _ _ _ _ => trivial
  call := fun _ _ h => h

/-! ## Every run -/

theorem panics_eq_false_iff (hfits : Fits msg) (duration : ℕ) :
    panics msg duration = false ↔ InTime duration := by
  rw [← report_isOk_iff hfits, panics]
  cases report msg duration with
  | error reason => simp
  | ok value => simp

/-- The pipeline of any run is as without the clock. -/
theorem kept_run (store : IndexerStore) (db : Db) (now : ℕ)
    (labels : List (Label TimedEvent Operation))
    (hfollows : timely.follows timed labels (readyAt now store db)) :
    Kept db (timed.run labels (readyAt now store db)).shared.world := by
  obtain ⟨plain, hplain, hrun⟩ := forgets_clock.run labels hfollows
  have hsafe := safe_run store db plain hplain
  have hkept : Kept db (driver.run plain (ready store db)).shared :=
    hsafe.always (fun _ _ h => Idle.kept h) (fun _ _ _ h => h)
  change driver.run plain (ready store db) = _ at hrun
  rw [hrun] at hkept
  exact hkept

/-- Each report is recorded with what it made of its time. -/
def Recorded (t : Timed) : Prop :=
  ∀ entry ∈ t.reports, entry.panicked = panics entry.msg entry.duration

theorem recorded_step (event : TimedEvent) (h : Recorded t) : Recorded (t.step event) := by
  cases event with
  | tick nanos => exact h
  | worker event =>
      cases event with
      | utxo fails => exact h
      | queryFmt fails => exact h
      | writer failAt =>
          cases failAt with
          | some count => exact h
          | none =>
              rw [Timed.step]
              cases committedMsg t.world with
              | none => exact h
              | some msg =>
                  intro entry hmem
                  obtain hold | hnew := List.mem_append.1 hmem
                  · exact h entry hold
                  · rw [List.mem_singleton.1 hnew]

theorem recorded_exec {β : Type} (access : Act β) (fails : Bool) (h : Recorded t) :
    Recorded ((timedExec access fails t).after t) := by
  rw [timedExec]
  cases exec access fails t.world <;> exact h

theorem recorded_run (labels : List (Label TimedEvent Operation))
    (c : Config Act IndexerStore Halt Timed) (h : Recorded c.shared) :
    Recorded (timed.run labels c).shared :=
  timed.run_monotone Recorded (fun access fails _ => recorded_exec access fails)
    (fun event _ => recorded_step event) (fun _ _ h => h) labels c h

theorem committedMsg_eq (hworkers : t.world.workers = some p) (hwriter : p.writer = .committed msg) :
    committedMsg t.world = some msg := by
  simp [committedMsg, hworkers, hwriter]

/-- The step after a commit that the report lets through. -/
theorem step_acknowledges {w : World} (hworkers : w.workers = some p)
    (hwriter : p.writer = .committed msg) (hsubset : msg.blockIds ⊆ w.inFlight) :
    w.step (.writer none) = { w.setWriter .recv p with inFlight := w.inFlight \ msg.blockIds } := by
  simp [World.step, hworkers, World.writerStep, hwriter, World.ackStep, hsubset]

theorem step_dies {w : World} (hworkers : w.workers = some p) (hwriter : p.writer = .committed msg)
    (count : ℕ) :
    w.step (.writer (some count)) =
      { w.setWriter (.exited (.err .failed)) p with failed := w.failed ++ [msg.batch] } := by
  simp [World.step, hworkers, World.writerStep, hwriter]

/-- The writer is ready for the next batch, and the ids of this one are no longer in flight. -/
def Acknowledged (msg : WriterMsg) (w after : World) : Prop :=
  msg.blockIds ⊆ w.inFlight ∧ after.inFlight = w.inFlight \ msg.blockIds ∧
    ∃ p, after.workers = some p ∧ p.writer = .recv

theorem acknowledged_iff {db : Db} (hkept : Kept db t.world) (hworkers : t.world.workers = some p)
    (hwriter : p.writer = .committed msg) (hfits : Fits msg) :
    Acknowledged msg t.world (t.step (.worker (.writer none))).world ↔
      InTime (t.now - t.prevTime) := by
  obtain ⟨extra, next, hinv, -⟩ := hkept
  have hsubset := hinv.blockIds_subset hworkers hwriter
  rw [Timed.step, committedMsg_eq hworkers hwriter, ← panics_eq_false_iff hfits]
  cases hpanics : panics msg (t.now - t.prevTime) with
  | true =>
      simp only [Timed.reportStep, hpanics, if_true, step_dies hworkers hwriter, Acknowledged]
      simp [World.setWriter]
  | false =>
      simp only [Timed.reportStep, hpanics, Bool.false_eq_true, if_false,
        step_acknowledges hworkers hwriter hsubset, Acknowledged]
      simp [World.setWriter, hsubset]

/-- In every state of any run a batch that is committed and fits in memory is acknowledged by
the writer's next step exactly where a millisecond has passed since the time it read last; and
the reports of the run panicked exactly where they came too early. -/
theorem writer_survives_iff (store : IndexerStore) (db : Db) (now : ℕ)
    (labels : List (Label TimedEvent Operation))
    (hfollows : timely.follows timed labels (readyAt now store db)) :
    let t := (timed.run labels (readyAt now store db)).shared
    (∀ p msg, t.world.workers = some p → p.writer = .committed msg → Fits msg →
      (Acknowledged msg t.world (t.step (.worker (.writer none))).world ↔
        InTime (t.now - t.prevTime))) ∧
    ((∀ entry ∈ t.reports, Fits entry.msg) →
      ((∀ entry ∈ t.reports, entry.panicked = false) ↔
        ∀ entry ∈ t.reports, InTime entry.duration)) := by
  intro t
  constructor
  · intro p msg hworkers hwriter hfits
    exact acknowledged_iff (kept_run store db now labels hfollows) hworkers hwriter hfits
  · intro hfits
    have hrecorded : Recorded t := recorded_run labels (readyAt now store db) (by simp [Recorded, readyAt])
    apply forall₂_congr
    intro entry hmem
    rw [hrecorded entry hmem]
    exact panics_eq_false_iff (hfits entry hmem) entry.duration

/-! ## One batch -/

/-- One batch all the way to its report, the given time after the writer was started. -/
def reporting (nanos : ℕ) : List (Label TimedEvent Operation) :=
  [.call .startWorkers, .step false, .call (.flushBatch [genesis]), .step false, .step false,
    .other (.worker (.utxo false)), .other (.worker (.utxo false)),
    .other (.worker (.queryFmt false)), .other (.worker (.queryFmt false)),
    .other (.worker (.writer none)), .other (.worker (.writer none)), .other (.tick nanos),
    .other (.worker (.writer none))]

def opened : Config Act IndexerStore Halt Timed := readyAt 0 (.opened .normal .bitcoin 0 0) .empty

theorem follows_reporting (nanos : ℕ) : timely.follows timed (reporting nanos) opened :=
  ⟨⟨rfl, rfl⟩, fun _ _ _ => trivial, ⟨rfl, ⟨_, rfl, rfl⟩, by decide⟩, fun _ _ _ => trivial,
    fun _ _ _ => trivial, trivial, trivial, trivial, trivial, trivial, trivial, trivial, trivial,
    trivial⟩

theorem late_report_goes_through :
    let t := (timed.run (reporting (10 ^ 6)) opened).shared
    t.reports.length = 1 ∧ ∀ entry ∈ t.reports, entry.panicked = false := by
  intro t
  have hiff := (writer_survives_iff _ _ _ _ (follows_reporting (10 ^ 6))).2
  have hreports : t.reports.map (fun entry =>
      (entry.msg.blockIds.card, entry.msg.txLen, entry.duration)) = [(1, 0, 10 ^ 6)] := by
    decide +kernel
  have hentry : ∀ entry ∈ t.reports, entry.msg.blockIds.card = 1 ∧ entry.msg.txLen = 0 ∧
      entry.duration = 10 ^ 6 := by
    intro entry hmem
    have hvalue := List.mem_map_of_mem (f := fun entry : Report =>
      (entry.msg.blockIds.card, entry.msg.txLen, entry.duration)) hmem
    rw [hreports, List.mem_singleton, Prod.mk.injEq, Prod.mk.injEq] at hvalue
    exact hvalue
  have hfits : ∀ entry ∈ t.reports, Fits entry.msg := by
    intro entry hmem
    obtain ⟨hblocks, htxs, -⟩ := hentry entry hmem
    rw [Fits, hblocks, htxs]
    decide
  refine ⟨by simpa using congrArg List.length hreports, (hiff hfits).2 fun entry hmem => ?_⟩
  obtain ⟨-, -, hduration⟩ := hentry entry hmem
  rw [hduration]
  decide

/-- A batch that is committed within the millisecond ends the writer, and stays in flight. -/
theorem early_report_ends_writer :
    let t := (timed.run (reporting 0) opened).shared
    timely.follows timed (reporting 0) opened ∧
      t.reports.map (fun entry => (entry.msg.blockIds.card, entry.panicked)) = [(1, true)] ∧
      t.world.committed.length = 1 ∧ t.world.inFlight.card = 1 ∧
      t.world.workers.any (fun p => p.writer.exit.isSome) = true :=
  ⟨follows_reporting 0, by decide +kernel, by decide +kernel, by decide +kernel, by decide +kernel⟩

end BitcoinIndexer.RateReport
