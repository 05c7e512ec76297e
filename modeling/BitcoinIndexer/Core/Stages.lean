import BitcoinIndexer.Core.Interleaving

/-!
# A thread that runs one program after another

A caller that uses what a program returns to choose the next one takes the steps of each
program one access at a time.  For another thread it is a caller that is asked to run
these programs and forgets what they return.
-/

namespace BitcoinIndexer.Interleaving

open Relation

variable {A : Type → Type 1} {ℓ ε ω ν κ α β : Type}

namespace Prog

/-- What a program that has come to its end returns. -/
def returned : Prog A ℓ ε α → Option α
  | .pure value => some value
  | _ => none

/-- Run the program, drop what it returns. -/
def forget (prog : Prog A ℓ ε α) : Prog A ℓ ε Unit := prog.bind fun _ => .pure ()

theorem eq_pure_of_returned {prog : Prog A ℓ ε α} {value : α} (h : prog.returned = some value) :
    prog = .pure value := by
  cases prog with
  | pure result => exact congrArg Prog.pure (Option.some.inj h)
  | _ => cases h

@[simp]
theorem forget_pure (value : α) : (.pure value : Prog A ℓ ε α).forget = .pure () := rfl

@[simp]
theorem forget_unit (prog : Prog A ℓ ε Unit) : prog.forget = prog := by
  unfold forget
  induction prog with
  | pure value => rfl
  | halt reason => rfl
  | loc update next ih => rw [loc_bind, funext ih]
  | act access next ih => rw [act_bind, funext ih]

theorem settle_forget (prog : Prog A ℓ ε α) (locals : ℓ) :
    prog.forget.settle locals = ((prog.settle locals).1.forget, (prog.settle locals).2) := by
  induction prog generalizing locals with
  | loc update next ih => exact ih _ _
  | _ => rfl

/-- The program has no local updates to do before its next access. -/
def Settled (prog : Prog A ℓ ε α) : Prop := ∀ locals, prog.settle locals = (prog, locals)

theorem settled_settle (prog : Prog A ℓ ε α) (locals : ℓ) : (prog.settle locals).1.Settled := by
  induction prog generalizing locals with
  | loc update next ih => exact ih _ _
  | _ => exact fun _ => rfl

theorem Settled.forget {prog : Prog A ℓ ε α} (h : prog.Settled) : prog.forget.Settled := by
  intro locals
  rw [settle_forget, h locals]

end Prog

namespace System

variable (S : System A ℓ ε ω ν κ)

/-- One access of a program, and the local updates after it. -/
def proceed (fails : Bool) : Prog A ℓ ε α → ℓ → ω → Prog A ℓ ε α × ℓ × ω
  | .act access next, locals, shared =>
      match S.exec access fails shared with
      | .blocked => (.act access next, locals, shared)
      | .done value after => (((next value).settle locals).1, ((next value).settle locals).2, after)
      | .halted reason after => (.halt reason, locals, after)
  | prog, locals, shared => (prog, locals, shared)

variable {S} {fails : Bool} {locals : ℓ} {shared : ω}

/-- The steps are those of a caller that forgets what the program returns. -/
theorem advance_forget (prog : Prog A ℓ ε α) :
    S.advance fails ⟨locals, shared, prog.forget⟩ =
      ⟨(S.proceed fails prog locals shared).2.1, (S.proceed fails prog locals shared).2.2,
        (S.proceed fails prog locals shared).1.forget⟩ := by
  cases prog with
  | act access next =>
      simp only [Prog.forget, Prog.act_bind, advance, proceed]
      cases S.exec access fails shared with
      | done value after =>
          have hsettle := (next value).settle_forget locals
          simp only [Prog.forget] at hsettle
          simp only [hsettle]
      | _ => rfl
  | _ => rfl

theorem proceed_forget (prog : Prog A ℓ ε α) :
    S.proceed fails prog.forget locals shared =
      ((S.proceed fails prog locals shared).1.forget, (S.proceed fails prog locals shared).2.1,
        (S.proceed fails prog locals shared).2.2) := by
  cases prog with
  | act access next =>
      simp only [Prog.forget, Prog.act_bind, proceed]
      cases S.exec access fails shared with
      | done value after =>
          have hsettle := (next value).settle_forget locals
          simp only [Prog.forget] at hsettle
          simp only [hsettle]
      | _ => rfl
  | _ => rfl

theorem settled_proceed {prog : Prog A ℓ ε α} (h : prog.Settled) :
    (S.proceed fails prog locals shared).1.Settled := by
  cases prog with
  | act access next =>
      simp only [proceed]
      cases S.exec access fails shared with
      | blocked => exact h
      | done value after => exact Prog.settled_settle _ _
      | halted reason after => exact fun _ => rfl
  | _ => exact h

end System

variable {S : System A ℓ ε ω ν κ} {D : Discipline A ℓ ε ω ν κ} {I : ω → Prop}
variable {E : ε → ℓ → ω → Prop} {Q : α → ℓ → ω → Prop} {prog : Prog A ℓ ε α}

theorem Safe.proceed {locals : ℓ} {shared : ω} (hsafe : Safe S D I E Q prog locals shared)
    (haccess : ∀ {γ : Type} (access : A γ), D.access access locals shared) (fails : Bool) :
    Safe S D I E Q (S.proceed fails prog locals shared).1 (S.proceed fails prog locals shared).2.1
      (S.proceed fails prog locals shared).2.2 := by
  cases prog with
  | act access next =>
      have heffect := (hsafe shared .refl).2 fails (haccess access)
      cases hexec : S.exec access fails shared with
      | blocked => simpa only [System.proceed, hexec] using hsafe
      | done value after =>
          simp only [System.proceed, hexec] at heffect ⊢
          exact (safe_settle (next value) locals after).2 heffect
      | halted reason after =>
          simp only [System.proceed, hexec] at heffect ⊢
          exact heffect
  | _ => exact hsafe

/-- Two postconditions of the same runs. -/
theorem Safe.and {R : α → ℓ → ω → Prop} :
    ∀ {locals shared}, Safe S D I E Q prog locals shared → Safe S D I E R prog locals shared →
      Safe S D I E (fun value locals shared => Q value locals shared ∧ R value locals shared) prog
        locals shared := by
  induction prog with
  | pure value => exact fun hQ hR => ⟨hQ, hR⟩
  | halt reason => exact fun hQ _ => hQ
  | loc update next ih => exact fun hQ hR => ih _ hQ hR
  | act access next ih =>
      intro locals shared hQ hR later henv
      refine ⟨(hQ later henv).1, fun fails haccess => ?_⟩
      have hleft := (hQ later henv).2 fails haccess
      have hright := (hR later henv).2 fails haccess
      cases hexec : S.exec access fails later with
      | blocked => trivial
      | done value after =>
          rw [hexec] at hleft hright
          exact ih value hleft hright
      | halted reason after =>
          rw [hexec] at hleft
          exact hleft

theorem Ensures.and {B : (γ : Type) → A γ → Prop} {P R : α → ℓ → Prop} :
    ∀ {locals}, Ensures B P prog locals → Ensures B R prog locals →
      Ensures B (fun value locals => P value locals ∧ R value locals) prog locals := by
  induction prog with
  | pure value => exact fun hP hR => ⟨hP, hR⟩
  | halt reason => exact fun _ _ => trivial
  | loc update next ih => exact fun hP hR => ih _ hP hR
  | act access next ih =>
      exact fun hP hR => ⟨hP.1, fun value => ih value (hP.2 value) (hR.2 value)⟩

end BitcoinIndexer.Interleaving
