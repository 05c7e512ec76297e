import BitcoinIndexer.Core.FairRuns
import BitcoinIndexer.Core.Stages

/-!
# Programs that come to an end

A program is a well-founded tree, so it can only go on for ever by waiting for ever at one
access.  Where the other threads let every access through in the end, each program ends,
whatever its accesses answer.
-/

namespace BitcoinIndexer.Interleaving

open Relation
open BitcoinIndexer.FairRuns

variable {A : Type → Type 1} {ℓ ε ω ν κ α β : Type}

/-- The program has returned or halted. -/
def Prog.ended : Prog A ℓ ε α → Bool
  | .pure _ | .halt _ => true
  | _ => false

@[simp]
theorem Prog.ended_forget (prog : Prog A ℓ ε α) : prog.forget.ended = prog.ended := by
  cases prog <;> rfl

theorem Prog.returned_eq_none {prog : Prog A ℓ ε α} (h : prog.ended = false) :
    prog.returned = none := by
  cases prog <;> first | rfl | cases h

/-- What happens at one moment, seen from one caller. -/
inductive Turn (ν : Type) where
  | own (fails : Bool)
  | other (event : ν)
  | elsewhere

def Turn.event : Turn ν → Option ν
  | .other event => some event
  | _ => none

namespace System

variable (S : System A ℓ ε ω ν κ)

/-- The state while the caller waits. -/
def drift (shared : ω) : Option ν → ω
  | none => shared
  | some event => S.interfere event shared

def turn : Turn ν → Prog A ℓ ε α × ℓ × ω → Prog A ℓ ε α × ℓ × ω
  | .own fails, (prog, locals, shared) => S.proceed fails prog locals shared
  | .other event, (prog, locals, shared) => (prog, locals, S.interfere event shared)
  | .elsewhere, state => state

def Blocked (access : A β) (shared : ω) : Prop := ∃ fails, S.exec access fails shared = .blocked

/-- `C` holds of the state that each access meets. -/
def Meets (C : (γ : Type) → A γ → ω → Prop) : Prog A ℓ ε α → ℓ → ω → Prop
  | .pure _, _, _ => True
  | .halt _, _, _ => True
  | .loc update next, locals, shared => Meets C (next (update locals).1) (update locals).2 shared
  | .act (β := γ) access next, locals, shared =>
      ∀ later, ReflTransGen (fun before after => ∃ event, after = S.drift before event) shared later →
        C γ access later ∧ ∀ fails, match S.exec access fails later with
          | .done value after => Meets C (next value) locals after
          | _ => True

/-- In every schedule of the others that is `fair`, an access that `C` holds of is blocked
no more from some time on. -/
def LetsThrough (C : (γ : Type) → A γ → ω → Prop) (fair : (ℕ → Option ν) → Prop) : Prop :=
  ∀ (γ : Type) (access : A γ) (shared : ω) (events : ℕ → Option ν), C γ access shared →
    fair events → ∃ time, ∀ later, time ≤ later →
      ¬ S.Blocked access (runTo S.drift shared events later)

variable {S} {C : (γ : Type) → A γ → ω → Prop}

theorem Meets.settle {prog : Prog A ℓ ε α} {locals : ℓ} {shared : ω}
    (h : S.Meets C prog locals shared) :
    S.Meets C (prog.settle locals).1 (prog.settle locals).2 shared := by
  induction prog generalizing locals with
  | loc update next ih => exact ih _ h
  | _ => exact h

theorem Meets.proceed {prog : Prog A ℓ ε α} {locals : ℓ} {shared : ω}
    (h : S.Meets C prog locals shared) (fails : Bool) :
    S.Meets C (S.proceed fails prog locals shared).1 (S.proceed fails prog locals shared).2.1
      (S.proceed fails prog locals shared).2.2 := by
  cases prog with
  | act access next =>
      have heffect := (h shared .refl).2 fails
      cases hexec : S.exec access fails shared with
      | blocked => simpa only [System.proceed, hexec] using h
      | done value after =>
          simp only [hexec] at heffect
          simpa only [System.proceed, hexec] using heffect.settle
      | halted reason after =>
          simp only [System.proceed, hexec]
          exact trivial
  | _ => exact h

theorem Meets.drift {prog : Prog A ℓ ε α} {locals : ℓ} {shared : ω}
    (h : S.Meets C prog locals shared) (event : Option ν) :
    S.Meets C prog locals (S.drift shared event) := by
  induction prog generalizing locals with
  | pure value => exact trivial
  | halt reason => exact trivial
  | loc update next ih => exact ih _ h
  | act access next =>
      intro later hlater
      exact h later (.head ⟨event, rfl⟩ hlater)

theorem Meets.bind {prog : Prog A ℓ ε α} {rest : α → Prog A ℓ ε β}
    (hrest : ∀ value locals shared, S.Meets C (rest value) locals shared) :
    ∀ {locals shared}, S.Meets C prog locals shared → S.Meets C (prog.bind rest) locals shared := by
  induction prog with
  | pure value => exact fun _ => hrest value _ _
  | halt reason => exact fun _ => trivial
  | loc update next ih => exact fun h => ih _ h
  | act access next ih =>
      intro locals shared h later hlater
      obtain ⟨hmeets, heffect⟩ := h later hlater
      refine ⟨hmeets, fun fails => ?_⟩
      have heffect := heffect fails
      cases hexec : S.exec access fails later with
      | done value after =>
          rw [hexec] at heffect
          exact ih value heffect
      | _ => trivial

theorem Meets.forget {prog : Prog A ℓ ε α} {locals : ℓ} {shared : ω}
    (h : S.Meets C prog locals shared) : S.Meets C prog.forget locals shared := by
  unfold Prog.forget
  apply Meets.bind _ h
  exact fun _ _ _ => trivial

/-- Until the caller gets through, its program waits in a state that drifts. -/
theorem waits {trace : ℕ → Prog A ℓ ε α × ℓ × ω} {turns : ℕ → Turn ν} {access : A β}
    {next : β → Prog A ℓ ε α} {locals : ℓ} {shared : ω} {time : ℕ}
    (htrace : ∀ later, (trace later).1.ended = false →
      trace (later + 1) = S.turn (turns later) (trace later))
    (hat : trace time = (.act access next, locals, shared)) (distance : ℕ) :
    let state := runTo S.drift shared fun later => (turns (time + later)).event
    (∀ earlier, earlier ≤ distance →
        trace (time + earlier) = (.act access next, locals, state earlier)) ∨
      ∃ passed, passed < distance ∧ trace (time + passed) = (.act access next, locals, state passed) ∧
        ∃ fails, turns (time + passed) = .own fails ∧
          S.exec access fails (state passed) ≠ .blocked := by
  intro state
  induction distance with
  | zero =>
      refine .inl fun earlier hle => ?_
      obtain rfl := Nat.le_zero.1 hle
      exact hat
  | succ distance ih =>
      obtain hall | ⟨passed, hlt, hpassed⟩ := ih
      · have hnow := hall distance le_rfl
        have hstep := htrace (time + distance) (by rw [hnow]; rfl)
        have hdrift : state (distance + 1) =
            S.drift (state distance) (turns (time + distance)).event := rfl
        rw [hnow] at hstep
        have hwaits : S.turn (turns (time + distance)) (.act access next, locals, state distance) =
              (.act access next, locals, state (distance + 1)) →
            ∀ earlier, earlier ≤ distance + 1 →
              trace (time + earlier) = (.act access next, locals, state earlier) := by
          intro hsame earlier hle
          obtain hlt | rfl := Nat.lt_or_eq_of_le hle
          · exact hall earlier (Nat.le_of_lt_succ hlt)
          · exact hstep.trans hsame
        cases hturn : turns (time + distance) with
        | own fails =>
            rw [hturn] at hwaits hdrift
            by_cases hexec : S.exec access fails (state distance) = .blocked
            · exact .inl (hwaits (by rw [hdrift]; simp only [turn, proceed, hexec]; rfl))
            · exact .inr ⟨distance, Nat.lt_succ_self _, hnow, fails, hturn, hexec⟩
        | other event =>
            rw [hturn] at hwaits hdrift
            exact .inl (hwaits (by rw [hdrift]; rfl))
        | elsewhere =>
            rw [hturn] at hwaits hdrift
            exact .inl (hwaits (by rw [hdrift]; rfl))
      · exact .inr ⟨passed, hlt.trans (Nat.lt_succ_self _), hpassed⟩

theorem drifts (shared : ω) (events : ℕ → Option ν) (time : ℕ) :
    ReflTransGen (fun before after => ∃ event, after = S.drift before event) shared
      (runTo S.drift shared events time) := by
  induction time with
  | zero => exact .refl
  | succ time ih => exact ih.tail ⟨_, rfl⟩

theorem Meets.ends_of_settle {fair : (ℕ → Option ν) → Prop} (hthrough : S.LetsThrough C fair)
    {trace : ℕ → Prog A ℓ ε α × ℓ × ω} {turns : ℕ → Turn ν}
    (htrace : ∀ later, (trace later).1.ended = false →
      trace (later + 1) = S.turn (turns later) (trace later))
    (hcaller : ∀ time, ∃ later, time ≤ later ∧ ∃ fails, turns later = .own fails)
    (hfair : ∀ time, fair fun later => (turns (time + later)).event) :
    ∀ (prog : Prog A ℓ ε α) (locals : ℓ) (shared : ω) (time : ℕ), S.Meets C prog locals shared →
      trace time = ((prog.settle locals).1, (prog.settle locals).2, shared) →
      ∃ later, time ≤ later ∧ (trace later).1.ended = true := by
  intro prog
  induction prog with
  | pure value => exact fun locals shared time _ hat => ⟨time, le_rfl, by rw [hat]; rfl⟩
  | halt reason => exact fun locals shared time _ hat => ⟨time, le_rfl, by rw [hat]; rfl⟩
  | loc update next ih => exact fun locals shared time h hat => ih _ _ _ time h hat
  | act access next ih =>
      intro locals shared time h hat
      let state := runTo S.drift shared fun later => (turns (time + later)).event
      obtain ⟨free, hfree⟩ := hthrough _ access shared _ (h shared .refl).1 (hfair time)
      obtain ⟨later, hle, fails, hown⟩ := hcaller (time + free)
      obtain ⟨distance, rfl⟩ := Nat.exists_eq_add_of_le ((Nat.le_add_right time free).trans hle)
      have hthere : ∃ passed, trace (time + passed) = (.act access next, locals, state passed) ∧
          ∃ fails, turns (time + passed) = .own fails ∧
            S.exec access fails (state passed) ≠ .blocked := by
        obtain hall | ⟨passed, -, hpassed⟩ := waits htrace hat distance
        · refine ⟨distance, hall distance le_rfl, fails, hown, fun hblocked => ?_⟩
          exact hfree distance (by omega) ⟨fails, hblocked⟩
        · exact ⟨passed, hpassed⟩
      obtain ⟨passed, hnow, fails, hown, hpasses⟩ := hthere
      have hstep := htrace (time + passed) (by rw [hnow]; rfl)
      have heffect := (h (state passed) (drifts shared _ passed)).2 fails
      rw [hnow, hown] at hstep
      simp only [turn, System.proceed] at hstep
      cases hexec : S.exec access fails (state passed) with
      | blocked => exact absurd hexec hpasses
      | done value after =>
          rw [hexec] at hstep heffect
          obtain ⟨later, hle, hended⟩ := ih value locals after _ heffect hstep
          exact ⟨later, by omega, hended⟩
      | halted reason after =>
          rw [hexec] at hstep
          exact ⟨time + passed + 1, by omega, by rw [hstep]; rfl⟩

/-- The caller takes turns again and again, and so do the others: its program ends. -/
theorem Meets.ends {fair : (ℕ → Option ν) → Prop} (hthrough : S.LetsThrough C fair)
    {trace : ℕ → Prog A ℓ ε α × ℓ × ω} {turns : ℕ → Turn ν}
    (htrace : ∀ later, (trace later).1.ended = false →
      trace (later + 1) = S.turn (turns later) (trace later))
    (hcaller : ∀ time, ∃ later, time ≤ later ∧ ∃ fails, turns later = .own fails)
    (hfair : ∀ time, fair fun later => (turns (time + later)).event) {time : ℕ}
    (hsettled : (trace time).1.Settled)
    (hmeets : S.Meets C (trace time).1 (trace time).2.1 (trace time).2.2) :
    ∃ later, time ≤ later ∧ (trace later).1.ended = true := by
  have hat : trace time = (((trace time).1.settle (trace time).2.1).1,
      ((trace time).1.settle (trace time).2.1).2, (trace time).2.2) := by
    rw [hsettled]
  exact ends_of_settle hthrough htrace hcaller hfair _ _ _ time hmeets hat

end System

end BitcoinIndexer.Interleaving
