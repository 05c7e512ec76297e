import BitcoinIndexer.Chain.Following

/-!
# Checking a schedule

Whether a run is one on blocks in the prefetcher's order can be computed label by
label, so that concrete runs can be tried out.
-/

namespace BitcoinIndexer.Schedules

open BitcoinIndexer.Types
open BitcoinIndexer.ReferenceChain
open BitcoinIndexer.Worker
open BitcoinIndexer.Store
open BitcoinIndexer.Grounding
open BitcoinIndexer.Following
open BitcoinIndexer.Interleaving

abbrev StoreConfig := Config Act IndexerStore Halt World
abbrev StoreLabel := Label WorkerEvent Call

def returned : StoreM Unit → Bool
  | .pure _ => true
  | _ => false

theorem eq_pure_of_returned {prog : StoreM Unit} (h : returned prog = true) :
    prog = .pure () := by
  cases prog with
  | pure value => rfl
  | _ => simp [returned] at h

/-! ## Calls in turn -/

/-- Calls follow one that has returned; a process may start at any time. -/
def answered : Discipline Act IndexerStore Halt World WorkerEvent Call where
  event := fun _ _ => True
  access := fun _ _ _ => True
  call := fun call c =>
    match call with
    | .start _ _ _ => True
    | .insert _ | .getHashByHeight _ => c.prog = .pure ()

def checkAnswered : StoreLabel → StoreConfig → Bool
  | .call (.insert _), c => returned c.prog
  | .call (.getHashByHeight _), c => returned c.prog
  | _, _ => true

theorem answered_of_check (label : StoreLabel) (c : StoreConfig)
    (h : checkAnswered label c = true) : answered.admits label c := by
  cases label with
  | step fails => exact fun _ _ _ => trivial
  | other event => trivial
  | call call =>
      cases call with
      | start nodeChainHeadHeight network resume => trivial
      | insert block => exact eq_pure_of_returned h
      | getHashByHeight height => exact eq_pure_of_returned h

/-! ## Blocks in the prefetcher's order -/

section

variable (S : Setting) [∀ db commit, Decidable (S.admits db commit)]

def checkAdmitted (w : World) : Bool :=
  match w.workers with
  | none => true
  | some p =>
      match p.writer with
      | .received msg => decide (S.admits w.db (.batch p.mode msg.batch.blocks))
      | _ => true

theorem admitted_of_check {S : Setting} [∀ db commit, Decidable (S.admits db commit)] {w : World}
    (h : checkAdmitted S w = true) : Admitted S w := by
  intro p msg hworkers hreceived
  simpa [checkAdmitted, hworkers, hreceived] using h

variable [∀ block, Decidable (block ∈ S.given)]

def checkCall (c : StoreConfig) : Call → Bool
  | .start _ network _ => network = S.network
  | .insert block =>
      returned c.prog && decide (Feeds c.shared.fed block) && decide (block ∈ S.given) &&
        (!c.locals.isInReorg || decide (block.height ≠ c.locals.chainBlockCount) ||
          decide (S.admits c.shared.db (planned c.locals c.shared.db block)))
  | .getHashByHeight _ => returned c.prog

def check : StoreLabel → StoreConfig → Bool
  | .step _, _ => true
  | .other (.writer _), c => checkAdmitted S c.shared
  | .other _, _ => true
  | .call call, c => checkCall S c call

variable {S}

theorem call_of_check {c : StoreConfig} {call : Call} (h : checkCall S c call = true) :
    (prefetched S).call call c := by
  cases call with
  | start nodeChainHeadHeight network resume =>
      have hnetwork : network = S.network := by simpa [checkCall] using h
      exact hnetwork
  | getHashByHeight height => exact eq_pure_of_returned h
  | insert block =>
      simp only [checkCall, Bool.and_eq_true, decide_eq_true_eq, Bool.or_eq_true,
        Bool.not_eq_true'] at h
      obtain ⟨⟨⟨hreturned, hfeeds⟩, hgiven⟩, hadmits⟩ := h
      refine ⟨eq_pure_of_returned hreturned, hfeeds, hgiven, fun hreorg htop => ?_⟩
      obtain (hout | hne) | hplan := hadmits
      · rw [hreorg] at hout
        exact absurd hout (by simp)
      · exact absurd htop hne
      · exact hplan

/-- A run that passes the check is one of those under consideration. -/
theorem follows_of_check (labels : List StoreLabel) (c : StoreConfig)
    (h : checkRun system (check S) labels c = true) : (prefetched S).follows system labels c := by
  apply follows_of_checkRun _ labels c h
  intro label c hpasses
  cases label with
  | step fails => exact fun _ _ _ => trivial
  | call call => exact call_of_check hpasses
  | other event =>
      intro failAt hevent
      subst hevent
      exact admitted_of_check hpasses

end

/-! ## Some schedules -/

/-- Every thread and the caller take a step. -/
def round : List StoreLabel :=
  [.other (.writer none), .other (.queryFmt false), .other (.utxo false), .step false]

/-- A call, and rounds that are enough for its end. -/
def calling (call : Call) (rounds : ℕ) : List StoreLabel :=
  .call call :: (List.replicate rounds round).flatten

/-- A new process without failures. -/
def opening (nodeChainHeadHeight : BlockHeight) (network : Network) : List StoreLabel :=
  .call (.start nodeChainHeadHeight network 0) :: List.replicate 22 (.step false)

end BitcoinIndexer.Schedules
