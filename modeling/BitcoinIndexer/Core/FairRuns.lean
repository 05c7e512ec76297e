import Mathlib.Order.WellFounded
import Mathlib.Order.Basic
import Mathlib.Order.Nat
import Mathlib.Data.Nat.Find

/-!
# Progress under fair schedules

Threads take steps in an order nobody controls, each of them again and again.  If in
every state some thread helps, its step brings a rank down, and no other step brings the
rank up or stops that thread from helping, then the goal is reached.
-/

namespace BitcoinIndexer.FairRuns

variable {σ ε τ α : Type}

/-- The state after the first events of an infinite schedule. -/
def runTo (step : σ → ε → σ) (s : σ) (events : ℕ → ε) : ℕ → σ
  | 0 => s
  | time + 1 => step (runTo step s events time) (events time)

/-- What every step keeps holds for ever. -/
theorem kept_runTo {step : σ → ε → σ} {inv : σ → Prop}
    (hstep : ∀ s event, inv s → inv (step s event)) {s : σ} (h : inv s) (events : ℕ → ε)
    (time : ℕ) : inv (runTo step s events time) := by
  induction time with
  | zero => exact h
  | succ time ih => exact hstep _ _ ih

/-- Every thread takes a step again and again, as long as it lives. -/
def Fair (step : σ → ε → σ) (thread : ε → τ) (lives : σ → τ → Prop) (s : σ) (events : ℕ → ε) :
    Prop :=
  ∀ t time, ∃ later, time ≤ later ∧ (lives (runTo step s events later) t → thread (events later) = t)

/-- Why the goal is reached from every state of the invariant. -/
structure Progress (step : σ → ε → σ) (thread : ε → τ) (lives : σ → τ → Prop)
    (admitted : σ → ε → Prop) (inv goal : σ → Prop) (α : Type) [Preorder α] where
  rank : σ → α
  helps : σ → τ → Prop
  someone : ∀ s, inv s → ¬ goal s → ∃ t, helps s t
  living : ∀ s t, inv s → ¬ goal s → helps s t → lives s t
  kept : ∀ s event, inv s → ¬ goal s → admitted s event → inv (step s event)
  steady : ∀ s event, inv s → ¬ goal s → admitted s event →
    rank (step s event) < rank s ∨
      rank (step s event) = rank s ∧ ∀ t, t ≠ thread event → helps s t → helps (step s event) t
  falls : ∀ s event, inv s → ¬ goal s → admitted s event → helps s (thread event) →
    rank (step s event) < rank s

namespace Progress

variable {step : σ → ε → σ} {thread : ε → τ} {lives : σ → τ → Prop}
variable {admitted : σ → ε → Prop} {inv goal : σ → Prop} [Preorder α]

/-- Until the helping thread takes its step, the goal is reached, the rank falls, or the
thread goes on helping. -/
theorem walk (P : Progress step thread lives admitted inv goal α) {s : σ} {events : ℕ → ε}
    {time : ℕ}
    (hadmitted : ∀ later, time ≤ later → admitted (runTo step s events later) (events later))
    {t : τ} (hinv : inv (runTo step s events time)) (hhelps : P.helps (runTo step s events time) t)
    (distance : ℕ) (hquiet : ∀ later, time ≤ later → later < time + distance →
      thread (events later) ≠ t) :
    (∃ later, time ≤ later ∧ goal (runTo step s events later)) ∨
      (∃ later, time ≤ later ∧ inv (runTo step s events later) ∧
        P.rank (runTo step s events later) < P.rank (runTo step s events time)) ∨
      (inv (runTo step s events (time + distance)) ∧
        P.helps (runTo step s events (time + distance)) t ∧
        P.rank (runTo step s events (time + distance)) = P.rank (runTo step s events time)) := by
  induction distance with
  | zero => exact .inr (.inr ⟨hinv, hhelps, rfl⟩)
  | succ distance ih =>
      have hbefore := ih fun later hle hlt => hquiet later hle (by omega)
      obtain hgoal | hfall | ⟨hinv', hhelps', hrank⟩ := hbefore
      · exact .inl hgoal
      · exact .inr (.inl hfall)
      by_cases hgoal : goal (runTo step s events (time + distance))
      · exact .inl ⟨_, by omega, hgoal⟩
      have hadm := hadmitted (time + distance) (by omega)
      have hkept := P.kept _ _ hinv' hgoal hadm
      obtain hlt | ⟨heq, hsame⟩ := P.steady _ _ hinv' hgoal hadm
      · refine .inr (.inl ⟨time + distance + 1, by omega, hkept, ?_⟩)
        rw [← hrank]
        exact hlt
      · have hother := (hquiet (time + distance) (by omega) (by omega)).symm
        exact .inr (.inr ⟨hkept, hsame t hother hhelps', heq.trans hrank⟩)

/-- In every fair run the goal is reached from the invariant. -/
theorem eventually [WellFoundedLT α] (P : Progress step thread lives admitted inv goal α)
    {s : σ} {events : ℕ → ε} (hfair : Fair step thread lives s events) {start : ℕ}
    (hadmitted : ∀ later, start ≤ later → admitted (runTo step s events later) (events later))
    {time : ℕ} (hstart : start ≤ time) (hinv : inv (runTo step s events time)) :
    ∃ later, time ≤ later ∧ goal (runTo step s events later) := by
  generalize hrank : P.rank (runTo step s events time) = rank
  induction rank using WellFoundedLT.induction generalizing time with
  | ind rank ih =>
      subst hrank
      by_cases hgoal : goal (runTo step s events time)
      · exact ⟨time, le_rfl, hgoal⟩
      obtain ⟨t, hhelps⟩ := P.someone _ hinv hgoal
      classical
      have hnext : ∃ distance, lives (runTo step s events (time + distance)) t →
          thread (events (time + distance)) = t := by
        obtain ⟨later, hle, heq⟩ := hfair t time
        exact ⟨later - time, by rwa [Nat.add_sub_cancel' hle]⟩
      obtain ⟨distance, hturn, hmin⟩ : ∃ distance,
          (lives (runTo step s events (time + distance)) t →
            thread (events (time + distance)) = t) ∧
          ∀ earlier, earlier < distance → thread (events (time + earlier)) ≠ t :=
        ⟨Nat.find hnext, Nat.find_spec hnext,
          fun _ hlt heq => Nat.find_min hnext hlt fun _ => heq⟩
      have hquiet : ∀ later, time ≤ later → later < time + distance →
          thread (events later) ≠ t := by
        intro later hle hlt heq
        apply hmin (later - time) (by omega)
        rw [Nat.add_sub_cancel' hle, heq]
      have hdescend : ∀ later, time ≤ later → inv (runTo step s events later) →
          P.rank (runTo step s events later) < P.rank (runTo step s events time) →
            ∃ later, time ≤ later ∧ goal (runTo step s events later) := by
        intro later hle hlater hlt
        obtain ⟨last, hlast, hreached⟩ := ih _ hlt (hstart.trans hle) hlater rfl
        exact ⟨last, hle.trans hlast, hreached⟩
      obtain hreached | ⟨later, hle, hlater, hlt⟩ | ⟨hinv', hhelps', heq⟩ :=
        P.walk (fun later hle => hadmitted later (hstart.trans hle)) hinv hhelps distance hquiet
      · exact hreached
      · exact hdescend later hle hlater hlt
      · by_cases hreached : goal (runTo step s events (time + distance))
        · exact ⟨_, by omega, hreached⟩
        have hadm := hadmitted (time + distance) (by omega)
        have hhelper := hturn (P.living _ _ hinv' hreached hhelps')
        rw [← hhelper] at hhelps'
        have hfall := P.falls _ _ hinv' hreached hadm hhelps'
        rw [heq] at hfall
        exact hdescend (time + distance + 1) (by omega) (P.kept _ _ hinv' hreached hadm) hfall

end Progress

end BitcoinIndexer.FairRuns
