import Mathlib.Data.List.Induction
import BitcoinIndexer.Core.Interleaving

/-!
# What lies between the states of a run

Safety says what holds in every state of a run.  Here it is said of every access of the
caller how it changes the state it finds; with a relation that the steps of the other
threads and the calls have in common with it, any two states of a run are related,
however many steps lie between.
-/

namespace BitcoinIndexer.Interleaving

open Relation

variable {A : Type → Type 1} {ℓ ε ω ν κ α β : Type}

section Steps

variable (S : System A ℓ ε ω ν κ) (D : Discipline A ℓ ε ω ν κ)
variable (G : (γ : Type) → A γ → ω → ω → Prop)

/-- Whatever the other threads have done, `G` relates the state an access finds to the one
it leaves; `Q` holds where the program returns. -/
def Steps (Q : α → ℓ → ω → Prop) : Prog A ℓ ε α → ℓ → ω → Prop
  | .pure value, locals, shared => Q value locals shared
  | .halt _, _, _ => True
  | .loc update next, locals, shared => Steps Q (next (update locals).1) (update locals).2 shared
  | .act access next, locals, shared =>
      ∀ later, ReflTransGen (D.Env S) shared later → ∀ fails, D.access access locals later →
        G _ access later ((S.exec access fails later).after later) ∧
          match S.exec access fails later with
          | .done value after => Steps Q (next value) locals after
          | _ => True

variable {S D G}
variable {Q : α → ℓ → ω → Prop}

@[simp]
theorem steps_loc {update : ℓ → β × ℓ} {next : β → Prog A ℓ ε α} {locals : ℓ} {shared : ω} :
    Steps S D G Q (.loc update next) locals shared ↔
      Steps S D G Q (next (update locals).1) (update locals).2 shared := Iff.rfl

theorem Steps.act {access : A β} {next : β → Prog A ℓ ε α} {locals : ℓ} {P : ω → Prop}
    (hstable : D.Stable S P)
    (heffect : ∀ shared, P shared → ∀ fails, D.access access locals shared →
      G _ access shared ((S.exec access fails shared).after shared) ∧
        match S.exec access fails shared with
        | .done value after => Steps S D G Q (next value) locals after
        | _ => True)
    {shared : ω} (hP : P shared) : Steps S D G Q (.act access next) locals shared :=
  fun later henv => heffect later (hstable.env henv hP)

theorem Steps.mono {R : α → ℓ → ω → Prop} {prog : Prog A ℓ ε α}
    (himp : ∀ value locals shared, Q value locals shared → R value locals shared) :
    ∀ {locals shared}, Steps S D G Q prog locals shared → Steps S D G R prog locals shared := by
  induction prog with
  | pure value => exact himp value _ _
  | halt reason => exact id
  | loc update next ih => exact ih _
  | act access next ih =>
      intro locals shared hsteps later henv fails haccess
      obtain ⟨hrelated, hnext⟩ := hsteps later henv fails haccess
      refine ⟨hrelated, ?_⟩
      cases hexec : S.exec access fails later with
      | done value after =>
          rw [hexec] at hnext
          exact ih value hnext
      | _ => trivial

theorem Steps.bind {R : β → ℓ → ω → Prop} {prog : Prog A ℓ ε α} {rest : α → Prog A ℓ ε β}
    (hrest : ∀ value locals shared, Q value locals shared →
      Steps S D G R (rest value) locals shared) :
    ∀ {locals shared}, Steps S D G Q prog locals shared →
      Steps S D G R (prog.bind rest) locals shared := by
  induction prog with
  | pure value => exact hrest value _ _
  | halt reason => exact id
  | loc update next ih => exact ih _
  | act access next ih =>
      intro locals shared hsteps later henv fails haccess
      obtain ⟨hrelated, hnext⟩ := hsteps later henv fails haccess
      refine ⟨hrelated, ?_⟩
      cases hexec : S.exec access fails later with
      | done value after =>
          rw [hexec] at hnext
          exact ih value hnext
      | _ => trivial

/-- Allowed accesses that relate the states they lie between, in a state of which only
what they and the other threads keep is known. -/
theorem Ensures.steps {B : (γ : Type) → A γ → Prop} {Q : α → ℓ → Prop} {P : ω → Prop}
    (hstable : D.Stable S P)
    (hexec : ∀ {γ : Type} (access : A γ) fails shared, B _ access → P shared →
      G _ access shared ((S.exec access fails shared).after shared) ∧
        P ((S.exec access fails shared).after shared)) {prog : Prog A ℓ ε α} :
    ∀ {locals shared}, Ensures B Q prog locals → P shared →
      Steps S D G (fun value locals shared => Q value locals ∧ P shared) prog locals shared := by
  induction prog with
  | pure value => exact fun hens hP => ⟨hens, hP⟩
  | halt reason => exact fun _ _ => trivial
  | loc update next ih => exact fun hens hP => ih _ hens hP
  | act access next ih =>
      intro locals shared hens hP
      apply Steps.act hstable _ hP
      intro ready hready fails _
      obtain ⟨hrelated, hafter⟩ := hexec access fails ready hens.1 hready
      refine ⟨hrelated, ?_⟩
      cases heffect : S.exec access fails ready with
      | done value after =>
          rw [heffect] at hafter
          exact ih value (hens.2 value) hafter
      | _ => trivial

theorem steps_settle (prog : Prog A ℓ ε α) (locals : ℓ) (shared : ω) :
    Steps S D G Q (prog.settle locals).1 (prog.settle locals).2 shared ↔
      Steps S D G Q prog locals shared := by
  induction prog generalizing locals with
  | loc update next ih => exact ih _ _
  | _ => exact Iff.rfl

theorem Steps.interfere (hQ : ∀ value locals, D.Stable S (Q value locals)) {prog : Prog A ℓ ε α} :
    ∀ (locals : ℓ) (event : ν) (shared : ω), D.event event shared →
      Steps S D G Q prog locals shared → Steps S D G Q prog locals (S.interfere event shared) := by
  induction prog with
  | pure value => exact hQ value
  | halt reason => exact fun _ _ _ _ _ => trivial
  | loc update next ih => exact fun locals => ih _ _
  | act access next ih =>
      intro locals event shared hevent hsteps later henv
      exact hsteps later (ReflTransGen.head ⟨event, hevent, rfl⟩ henv)

end Steps

section Runs

variable {S : System A ℓ ε ω ν κ} {D : Discipline A ℓ ε ω ν κ}
variable {G : (γ : Type) → A γ → ω → ω → Prop} {H : ω → ω → Prop} {R : ℓ → ω → Prop}

def StepsConfig (S : System A ℓ ε ω ν κ) (D : Discipline A ℓ ε ω ν κ)
    (G : (γ : Type) → A γ → ω → ω → Prop) (R : ℓ → ω → Prop) (c : Config A ℓ ε ω) : Prop :=
  Steps S D G (fun _ => R) c.prog c.locals c.shared

theorem StepsConfig.advance (hrefl : ∀ shared, H shared shared)
    (hG : ∀ {γ : Type} (access : A γ) before after, G _ access before after → H before after)
    {c : Config A ℓ ε ω} {fails : Bool} (hadmits : D.admits (.step fails) c)
    (hsteps : StepsConfig S D G R c) :
    StepsConfig S D G R (S.advance fails c) ∧ H c.shared (S.advance fails c).shared := by
  obtain ⟨locals, shared, prog⟩ := c
  cases prog with
  | act access next =>
      obtain ⟨hrelated, hnext⟩ := hsteps shared .refl fails (hadmits access next rfl)
      cases hexec : S.exec access fails shared with
      | blocked =>
          simp only [System.advance, hexec]
          exact ⟨hsteps, hrefl shared⟩
      | done value after =>
          simp only [System.advance, hexec, Effect.after] at hrelated hnext ⊢
          exact ⟨(steps_settle (next value) locals after).2 hnext, hG access shared after hrelated⟩
      | halted reason after =>
          simp only [System.advance, hexec, Effect.after] at hrelated ⊢
          exact ⟨trivial, hG access shared after hrelated⟩
  | _ => exact ⟨hsteps, hrefl shared⟩

/-- The next access of a run. -/
theorem StepsConfig.related {locals : ℓ} {shared : ω} {access : A β} {next : β → Prog A ℓ ε Unit}
    (hsteps : StepsConfig S D G R ⟨locals, shared, .act access next⟩)
    (haccess : D.access access locals shared) (fails : Bool) :
    G _ access shared ((S.exec access fails shared).after shared) :=
  (hsteps shared .refl fails haccess).1

/-- The rule for runs: what the accesses, the other threads and the calls do is all in one
transitive relation; a call may rely on what has been done before it. -/
theorem StepsConfig.run {c : Config A ℓ ε ω} (hrefl : ∀ shared, H shared shared)
    (htrans : ∀ {first second third}, H first second → H second third → H first third)
    (hG : ∀ {γ : Type} (access : A γ) before after, G _ access before after → H before after)
    (hR : ∀ locals, D.Stable S (R locals))
    (hevent : ∀ event shared, D.event event shared → H shared (S.interfere event shared))
    (hcall : ∀ labels name, D.follows S labels c → D.call name (S.run labels c) →
      StepsConfig S D G R (S.run labels c) → H c.shared (S.run labels c).shared →
        H (S.run labels c).shared (S.enter name (S.run labels c).shared) ∧
          Steps S D G (fun _ => R) (S.body name) (S.run labels c).locals
            (S.enter name (S.run labels c).shared))
    (hsteps : StepsConfig S D G R c) (before after : List (Label ν κ))
    (hfollows : D.follows S (before ++ after) c) :
    StepsConfig S D G R (S.run (before ++ after) c) ∧
      H (S.run before c).shared (S.run (before ++ after) c).shared := by
  -- one label, from any state of the run
  have hnext : ∀ labels label, D.follows S (labels ++ [label]) c →
      StepsConfig S D G R (S.run labels c) → H c.shared (S.run labels c).shared →
        StepsConfig S D G R (S.run (labels ++ [label]) c) ∧
          H (S.run labels c).shared (S.run (labels ++ [label]) c).shared := by
    intro labels label hlabels hconfig hsince
    obtain ⟨hearlier, hadmits, -⟩ := (Discipline.follows_append S D labels [label] c).1 hlabels
    rw [System.run_append]
    cases label with
    | step fails => exact hconfig.advance hrefl hG hadmits
    | other event =>
        exact ⟨Steps.interfere (fun _ => hR) _ event _ hadmits hconfig, hevent event _ hadmits⟩
    | call name =>
        obtain ⟨hrelated, hbody⟩ := hcall labels name hearlier hadmits hconfig hsince
        exact ⟨(steps_settle _ _ _).2 hbody, hrelated⟩
  have hreached : ∀ labels, D.follows S labels c →
      StepsConfig S D G R (S.run labels c) ∧ H c.shared (S.run labels c).shared := by
    intro labels
    induction labels using List.reverseRecOn with
    | nil => exact fun _ => ⟨hsteps, hrefl _⟩
    | append_singleton labels label ih =>
        intro hlabels
        obtain ⟨hconfig, hsince⟩ := ih ((Discipline.follows_append S D labels _ c).1 hlabels).1
        obtain ⟨hafter, hrelated⟩ := hnext labels label hlabels hconfig hsince
        exact ⟨hafter, htrans hsince hrelated⟩
  refine ⟨(hreached _ hfollows).1, ?_⟩
  induction after using List.reverseRecOn with
  | nil =>
      rw [List.append_nil]
      exact hrefl _
  | append_singleton after label ih =>
      rw [← List.append_assoc] at hfollows ⊢
      have hearlier := ((Discipline.follows_append S D (before ++ after) [label] c).1 hfollows).1
      obtain ⟨hconfig, hsince⟩ := hreached _ hearlier
      exact htrans (ih hearlier) (hnext _ label hfollows hconfig hsince).2

end Runs

end BitcoinIndexer.Interleaving
