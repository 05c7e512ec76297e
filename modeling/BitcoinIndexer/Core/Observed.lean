import BitcoinIndexer.Core.FairRuns

/-!
# Progress of a part

A system has a part that most of its steps leave alone.  The part makes progress in every
run of the system in which a thread that helps the part goes on to take its steps in it.
-/

namespace BitcoinIndexer.FairRuns

variable {σ ε τ α : Type} {step : σ → ε → σ} {thread : ε → τ} {lives : σ → τ → Prop}
variable {admitted : σ → ε → Prop} {inv goal : σ → Prop} [Preorder α]

/-- A step of the system is one of its part or none. -/
def within (step : σ → ε → σ) (s : σ) (event : Option ε) : σ := event.elim s (step s)

namespace Progress

/-- The progress goes on through steps that leave the part alone; a thread is needed only
while it helps. -/
def within (P : Progress step thread lives admitted inv goal α) :
    Progress (within step) (Option.map thread) (fun s helper => ∃ t, helper = some t ∧ P.helps s t)
      (fun s event => ∀ own, event = some own → admitted s own) inv goal α where
  rank := P.rank
  helps := fun s helper => ∃ t, helper = some t ∧ P.helps s t
  someone := by
    intro s hinv hgoal
    obtain ⟨t, hhelps⟩ := P.someone s hinv hgoal
    exact ⟨some t, t, rfl, hhelps⟩
  living := fun s _ _ _ hhelps => hhelps
  kept := by
    intro s event hinv hgoal hadmitted
    cases event with
    | none => exact hinv
    | some own => exact P.kept s own hinv hgoal (hadmitted own rfl)
  steady := by
    intro s event hinv hgoal hadmitted
    cases event with
    | none => exact .inr ⟨rfl, fun _ _ hhelps => hhelps⟩
    | some own =>
        refine (P.steady s own hinv hgoal (hadmitted own rfl)).imp_right ?_
        rintro ⟨hrank, hsame⟩
        refine ⟨hrank, ?_⟩
        rintro _ hother ⟨t, rfl, hhelps⟩
        exact ⟨t, rfl, hsame t (fun heq => hother (congrArg some heq)) hhelps⟩
  falls := by
    rintro s event hinv hgoal hadmitted ⟨t, hthread, hhelps⟩
    cases event with
    | none => cases hthread
    | some own =>
        obtain rfl := Option.some.inj hthread
        exact P.falls s own hinv hgoal (hadmitted own rfl) hhelps

/-- In a run of the system the part reaches its goal. -/
theorem observed [WellFoundedLT α] (P : Progress step thread lives admitted inv goal α)
    {part : ℕ → σ} {events : ℕ → Option ε}
    (hsteps : ∀ time, part (time + 1) = FairRuns.within step (part time) (events time))
    {start : ℕ} (hadmitted : ∀ time own, start ≤ time → events time = some own →
      admitted (part time) own)
    (hfair : ∀ t time, ∃ later, time ≤ later ∧
      (P.helps (part later) t → ∃ own, events later = some own ∧ thread own = t))
    (hinv : inv (part start)) : ∃ later, start ≤ later ∧ goal (part later) := by
  have hrun : ∀ time, runTo (FairRuns.within step) (part 0) events time = part time := by
    intro time
    induction time with
    | zero => rfl
    | succ time ih => rw [runTo, ih, hsteps]
  have hevery : Fair (FairRuns.within step) (Option.map thread)
      (fun s helper => ∃ t, helper = some t ∧ P.helps s t) (part 0) events := by
    intro helper time
    cases helper with
    | none =>
        refine ⟨time, le_rfl, ?_⟩
        rintro ⟨t, hnone, -⟩
        cases hnone
    | some t =>
        obtain ⟨later, hle, hturn⟩ := hfair t time
        refine ⟨later, hle, ?_⟩
        rintro ⟨other, hother, hhelps⟩
        obtain rfl := Option.some.inj hother
        rw [hrun] at hhelps
        obtain ⟨own, hevent, hthread⟩ := hturn hhelps
        rw [hevent, Option.map_some, hthread]
  have hbegin : inv (runTo (FairRuns.within step) (part 0) events start) := by rwa [hrun]
  obtain ⟨later, hle, hgoal⟩ := P.within.eventually hevery
    (fun later hle own hown => by rw [hrun]; exact hadmitted later own hle hown) le_rfl hbegin
  exact ⟨later, hle, by rwa [hrun] at hgoal⟩

end Progress

end BitcoinIndexer.FairRuns
