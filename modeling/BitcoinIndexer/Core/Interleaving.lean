import Mathlib.Logic.Relation
import Mathlib.Order.Basic

/-!
# Programs under interference

A caller runs a program of atomic accesses to a state that other threads change
between any two of them.  The program is a tree whose branches are chosen by the
answers of the accesses; purely local updates never leave the caller and are not
interruption points.  Safety of a program is stated once, under every admitted
interference, and composes along `bind`; the last section turns it into an
invariant of whole runs, in which calls follow each other and every step of the
caller and of the other threads may come at any time.
-/

namespace BitcoinIndexer.Interleaving

open Relation

/-- What one atomic access does: it waits, it answers, or it ends the caller. -/
inductive Effect (ω ε β : Type) where
  | blocked
  | done (value : β) (shared : ω)
  | halted (reason : ε) (shared : ω)

/-- The state an access leaves behind. -/
def Effect.after {ω ε β : Type} : Effect ω ε β → ω → ω
  | .blocked, before => before
  | .done _ shared, _ => shared
  | .halted _ shared, _ => shared

/-- Programs over the accesses `A` with the caller's own state `ℓ`. -/
inductive Prog (A : Type → Type 1) (ℓ ε : Type) (α : Type) : Type 1 where
  | pure (value : α)
  | halt (reason : ε)
  | loc {β : Type} (update : ℓ → β × ℓ) (next : β → Prog A ℓ ε α)
  | act {β : Type} (access : A β) (next : β → Prog A ℓ ε α)

variable {A : Type → Type 1} {ℓ ε ω ν κ α β : Type}

namespace Prog

def bind : Prog A ℓ ε α → (α → Prog A ℓ ε β) → Prog A ℓ ε β
  | .pure value, rest => rest value
  | .halt reason, _ => .halt reason
  | .loc update next, rest => .loc update fun value => (next value).bind rest
  | .act access next, rest => .act access fun value => (next value).bind rest

instance : Monad (Prog A ℓ ε) where
  pure := .pure
  bind := .bind

def perform (access : A β) : Prog A ℓ ε β :=
  .act access .pure

def read : Prog A ℓ ε ℓ :=
  .loc (fun locals => (locals, locals)) .pure

def modify (change : ℓ → ℓ) : Prog A ℓ ε Unit :=
  .loc (fun locals => ((), change locals)) .pure

/-- Run the local updates at the head of a program: nobody else can see them. -/
def settle : Prog A ℓ ε α → ℓ → Prog A ℓ ε α × ℓ
  | .loc update next, locals => (next (update locals).1).settle (update locals).2
  | .pure value, locals => (.pure value, locals)
  | .halt reason, locals => (.halt reason, locals)
  | .act access next, locals => (.act access next, locals)

@[simp]
theorem pure_eq (value : α) : (Pure.pure value : Prog A ℓ ε α) = .pure value := rfl

@[simp]
theorem bind_eq (first : Prog A ℓ ε α) (rest : α → Prog A ℓ ε β) :
    (first >>= rest) = first.bind rest := rfl

@[simp]
theorem pure_bind (value : α) (rest : α → Prog A ℓ ε β) :
    (Prog.pure value : Prog A ℓ ε α).bind rest = rest value := rfl

@[simp]
theorem halt_bind (reason : ε) (rest : α → Prog A ℓ ε β) :
    (Prog.halt reason : Prog A ℓ ε α).bind rest = .halt reason := rfl

@[simp]
theorem loc_bind {γ : Type} (update : ℓ → γ × ℓ) (next : γ → Prog A ℓ ε α)
    (rest : α → Prog A ℓ ε β) :
    (Prog.loc update next).bind rest = .loc update fun value => (next value).bind rest := rfl

@[simp]
theorem act_bind {γ : Type} (access : A γ) (next : γ → Prog A ℓ ε α)
    (rest : α → Prog A ℓ ε β) :
    (Prog.act access next).bind rest = .act access fun value => (next value).bind rest := rfl

@[simp]
theorem read_bind (rest : ℓ → Prog A ℓ ε β) :
    (Prog.read : Prog A ℓ ε ℓ).bind rest = .loc (fun locals => (locals, locals)) rest := rfl

@[simp]
theorem modify_bind (change : ℓ → ℓ) (rest : Unit → Prog A ℓ ε β) :
    (Prog.modify change : Prog A ℓ ε Unit).bind rest =
      .loc (fun locals => ((), change locals)) rest := rfl

@[simp]
theorem perform_bind (access : A α) (rest : α → Prog A ℓ ε β) :
    (Prog.perform access : Prog A ℓ ε α).bind rest = .act access rest := rfl

theorem bind_assoc {γ : Type} (prog : Prog A ℓ ε α) (first : α → Prog A ℓ ε β)
    (rest : β → Prog A ℓ ε γ) :
    (prog.bind first).bind rest = prog.bind fun value => (first value).bind rest := by
  induction prog with
  | pure value => rfl
  | halt reason => rfl
  | loc update next ih =>
      rw [loc_bind, loc_bind, loc_bind]
      congr 1
      funext value
      exact ih value
  | act access next ih =>
      rw [act_bind, act_bind, act_bind]
      congr 1
      funext value
      exact ih value

end Prog

/-- The accesses with their effects, the steps of the other threads, and the
programs the caller may be asked to run. -/
structure System (A : Type → Type 1) (ℓ ε ω ν κ : Type) where
  exec : {β : Type} → A β → Bool → ω → Effect ω ε β
  interfere : ν → ω → ω
  enter : κ → ω → ω
  body : κ → Prog A ℓ ε Unit

structure Config (A : Type → Type 1) (ℓ ε ω : Type) : Type 1 where
  locals : ℓ
  shared : ω
  prog : Prog A ℓ ε Unit

/-- One step of a run: the caller's next access (which may be made to fail), a
step of another thread, or a new call. -/
inductive Label (ν κ : Type) where
  | step (fails : Bool)
  | other (event : ν)
  | call (name : κ)
  deriving DecidableEq

namespace System

variable (S : System A ℓ ε ω ν κ)

def advance (fails : Bool) (c : Config A ℓ ε ω) : Config A ℓ ε ω :=
  match c.prog with
  | .act access next =>
      match S.exec access fails c.shared with
      | .blocked => c
      | .done value shared =>
          ⟨((next value).settle c.locals).2, shared, ((next value).settle c.locals).1⟩
      | .halted reason shared => ⟨c.locals, shared, .halt reason⟩
  | _ => c

def next : Label ν κ → Config A ℓ ε ω → Config A ℓ ε ω
  | .step fails, c => S.advance fails c
  | .other event, c => { c with shared := S.interfere event c.shared }
  | .call name, c =>
      ⟨((S.body name).settle c.locals).2, S.enter name c.shared,
        ((S.body name).settle c.locals).1⟩

def run : List (Label ν κ) → Config A ℓ ε ω → Config A ℓ ε ω
  | [], c => c
  | label :: labels, c => run labels (S.next label c)

theorem run_append (labels more : List (Label ν κ)) (c : Config A ℓ ε ω) :
    S.run (labels ++ more) c = S.run more (S.run labels c) := by
  induction labels generalizing c with
  | nil => rfl
  | cons label labels ih => exact ih _

/-- What no access, no other thread and no call lowers never decreases in a run. -/
theorem run_monotone {μ : Type} [Preorder μ] (measure : ω → μ)
    (hexec : ∀ {β : Type} (access : A β) fails shared,
      measure shared ≤ measure ((S.exec access fails shared).after shared))
    (hinterfere : ∀ event shared, measure shared ≤ measure (S.interfere event shared))
    (henter : ∀ name shared, measure shared ≤ measure (S.enter name shared))
    (labels : List (Label ν κ)) (c : Config A ℓ ε ω) :
    measure c.shared ≤ measure (S.run labels c).shared := by
  induction labels generalizing c with
  | nil => exact le_rfl
  | cons label labels ih =>
      apply le_trans _ (ih _)
      cases label with
      | other event => exact hinterfere event c.shared
      | call name => exact henter name c.shared
      | step fails =>
          obtain ⟨locals, shared, prog⟩ := c
          cases prog with
          | act access next =>
              have hafter := hexec access fails shared
              simp only [System.next, System.advance]
              cases heffect : S.exec access fails shared with
              | blocked => exact le_rfl
              | _ => simpa only [heffect, Effect.after] using hafter
          | _ => exact le_rfl

end System

/-- Which steps the runs under consideration may take. -/
structure Discipline (A : Type → Type 1) (ℓ ε ω ν κ : Type) where
  event : ν → ω → Prop
  access : {β : Type} → A β → ℓ → ω → Prop
  call : κ → Config A ℓ ε ω → Prop

namespace Discipline

variable (S : System A ℓ ε ω ν κ) (D : Discipline A ℓ ε ω ν κ)

def admits : Label ν κ → Config A ℓ ε ω → Prop
  | .step _, c => ∀ {β : Type} (access : A β) (next : β → Prog A ℓ ε Unit),
      c.prog = .act access next → D.access access c.locals c.shared
  | .other event, c => D.event event c.shared
  | .call name, c => D.call name c

def follows : List (Label ν κ) → Config A ℓ ε ω → Prop
  | [], _ => True
  | label :: labels, c => D.admits label c ∧ follows labels (S.next label c)

/-- An assertion on the shared state that no admitted step of another thread
breaks. -/
def Stable (P : ω → Prop) : Prop :=
  ∀ event shared, D.event event shared → P shared → P (S.interfere event shared)

def Env (before after : ω) : Prop :=
  ∃ event, D.event event before ∧ after = S.interfere event before

theorem follows_append (labels more : List (Label ν κ)) (c : Config A ℓ ε ω) :
    D.follows S (labels ++ more) c ↔
      D.follows S labels c ∧ D.follows S more (S.run labels c) := by
  induction labels generalizing c with
  | nil => simp [follows, System.run]
  | cons label labels ih => simp [follows, System.run, ih, and_assoc]

variable {S D}

theorem Stable.env {P : ω → Prop} (hstable : D.Stable S P) {before after : ω}
    (henv : ReflTransGen (D.Env S) before after) (hP : P before) : P after := by
  induction henv with
  | refl => exact hP
  | tail _ hstep ih =>
      obtain ⟨event, hevent, rfl⟩ := hstep
      exact hstable event _ hevent ih

theorem Stable.and {P R : ω → Prop} (hP : D.Stable S P) (hR : D.Stable S R) :
    D.Stable S fun shared => P shared ∧ R shared :=
  fun event shared hevent h =>
    ⟨hP event shared hevent h.1, hR event shared hevent h.2⟩

end Discipline

section Checks

variable (S : System A ℓ ε ω ν κ)

/-- Every step of a run passes the test. -/
def checkRun (passes : Label ν κ → Config A ℓ ε ω → Bool) :
    List (Label ν κ) → Config A ℓ ε ω → Bool
  | [], _ => true
  | label :: labels, c => passes label c && checkRun passes labels (S.next label c)

variable {S} {D : Discipline A ℓ ε ω ν κ}

theorem follows_of_checkRun {passes : Label ν κ → Config A ℓ ε ω → Bool}
    (hpasses : ∀ label c, passes label c = true → D.admits label c) (labels : List (Label ν κ))
    (c : Config A ℓ ε ω) (h : checkRun S passes labels c = true) : D.follows S labels c := by
  induction labels generalizing c with
  | nil => trivial
  | cons label labels ih =>
      rw [checkRun, Bool.and_eq_true] at h
      exact ⟨hpasses label c h.1, ih _ h.2⟩

end Checks

section Safety

variable (S : System A ℓ ε ω ν κ) (D : Discipline A ℓ ε ω ν κ)
variable (I : ω → Prop) (E : ε → ℓ → ω → Prop)

/-- Safety under interference: `I` holds wherever another thread can look, `E`
wherever the caller halts, `Q` where it returns. -/
def Safe (Q : α → ℓ → ω → Prop) : Prog A ℓ ε α → ℓ → ω → Prop
  | .pure value, locals, shared => Q value locals shared
  | .halt reason, locals, shared => E reason locals shared
  | .loc update next, locals, shared =>
      Safe Q (next (update locals).1) (update locals).2 shared
  | .act access next, locals, shared =>
      ∀ later, ReflTransGen (D.Env S) shared later → I later ∧
        ∀ fails, D.access access locals later →
          match S.exec access fails later with
          | .blocked => True
          | .done value after => Safe Q (next value) locals after
          | .halted reason after => E reason locals after

variable {S D I E}
variable {Q : α → ℓ → ω → Prop}

@[simp]
theorem safe_pure {value : α} {locals : ℓ} {shared : ω} :
    Safe S D I E Q (.pure value) locals shared ↔ Q value locals shared := Iff.rfl

@[simp]
theorem safe_halt {reason : ε} {locals : ℓ} {shared : ω} :
    Safe S D I E Q (.halt reason) locals shared ↔ E reason locals shared := Iff.rfl

@[simp]
theorem safe_loc {update : ℓ → β × ℓ} {next : β → Prog A ℓ ε α} {locals : ℓ} {shared : ω} :
    Safe S D I E Q (.loc update next) locals shared ↔
      Safe S D I E Q (next (update locals).1) (update locals).2 shared := Iff.rfl

@[simp]
theorem safe_modify {change : ℓ → ℓ} {R : Unit → ℓ → ω → Prop} {locals : ℓ} {shared : ω} :
    Safe S D I E R (Prog.modify change) locals shared ↔ R () (change locals) shared := Iff.rfl

/-- The rule for one access: an assertion that the other threads keep, and the
effect of the access on every state where it holds. -/
theorem Safe.act {access : A β} {next : β → Prog A ℓ ε α} {locals : ℓ}
    {P : ω → Prop} (hstable : D.Stable S P) (hI : ∀ shared, P shared → I shared)
    (heffect : ∀ shared, P shared → ∀ fails, D.access access locals shared →
      match S.exec access fails shared with
      | .blocked => True
      | .done value after => Safe S D I E Q (next value) locals after
      | .halted reason after => E reason locals after)
    {shared : ω} (hP : P shared) :
    Safe S D I E Q (.act access next) locals shared := by
  intro later henv
  have hlater : P later := hstable.env henv hP
  exact ⟨hI later hlater, heffect later hlater⟩

/-- Where no other thread changes anything, the access meets the state as it is. -/
theorem Safe.act_still {access : A β} {next : β → Prog A ℓ ε α} {locals : ℓ} {shared : ω}
    (hstill : D.Stable S fun later => later = shared) (hI : I shared)
    (heffect : ∀ fails, D.access access locals shared →
      match S.exec access fails shared with
      | .blocked => True
      | .done value after => Safe S D I E Q (next value) locals after
      | .halted reason after => E reason locals after) :
    Safe S D I E Q (.act access next) locals shared := by
  apply Safe.act hstill _ _ rfl
  · rintro later rfl
    exact hI
  · rintro later rfl
    exact heffect

theorem Safe.mono {R : α → ℓ → ω → Prop} {prog : Prog A ℓ ε α}
    (himp : ∀ value locals shared, Q value locals shared → R value locals shared) :
    ∀ {locals shared}, Safe S D I E Q prog locals shared →
      Safe S D I E R prog locals shared := by
  induction prog with
  | pure value => exact himp value _ _
  | halt reason => exact id
  | loc update next ih => exact ih _
  | act access next ih =>
      intro locals shared hsafe later henv
      obtain ⟨hI, heffect⟩ := hsafe later henv
      refine ⟨hI, fun fails haccess => ?_⟩
      have heffect := heffect fails haccess
      cases hexec : S.exec access fails later with
      | blocked => trivial
      | done value after =>
          rw [hexec] at heffect
          exact ih value heffect
      | halted reason after =>
          rw [hexec] at heffect
          exact heffect

/-- Safety composes: the second program starts where the first one may return. -/
theorem Safe.bind {R : β → ℓ → ω → Prop} {prog : Prog A ℓ ε α}
    {rest : α → Prog A ℓ ε β}
    (hrest : ∀ value locals shared, Q value locals shared →
      Safe S D I E R (rest value) locals shared) :
    ∀ {locals shared}, Safe S D I E Q prog locals shared →
      Safe S D I E R (prog.bind rest) locals shared := by
  induction prog with
  | pure value => exact hrest value _ _
  | halt reason => exact id
  | loc update next ih => exact ih _
  | act access next ih =>
      intro locals shared hsafe later henv
      obtain ⟨hI, heffect⟩ := hsafe later henv
      refine ⟨hI, fun fails haccess => ?_⟩
      have heffect := heffect fails haccess
      cases hexec : S.exec access fails later with
      | blocked => trivial
      | done value after =>
          rw [hexec] at heffect
          exact ih value heffect
      | halted reason after =>
          rw [hexec] at heffect
          exact heffect

/-- What every step and every access keeps may be added to the postcondition. -/
theorem Safe.frame {P : ω → Prop} {prog : Prog A ℓ ε α} (hstable : D.Stable S P)
    (hexec : ∀ {γ : Type} (access : A γ) fails shared, P shared →
      P ((S.exec access fails shared).after shared)) :
    ∀ {locals shared}, Safe S D I E Q prog locals shared → P shared →
      Safe S D I E (fun value locals shared => Q value locals shared ∧ P shared) prog locals
        shared := by
  induction prog with
  | pure value => exact fun hsafe hP => ⟨hsafe, hP⟩
  | halt reason => exact fun hsafe _ => hsafe
  | loc update next ih => exact fun hsafe hP => ih _ hsafe hP
  | act access next ih =>
      intro locals shared hsafe hP later henv
      have hlater := hstable.env henv hP
      obtain ⟨hI, heffect⟩ := hsafe later henv
      refine ⟨hI, fun fails haccess => ?_⟩
      have heffect := heffect fails haccess
      have hafter := hexec access fails later hlater
      cases hresult : S.exec access fails later with
      | blocked => trivial
      | done value after =>
          rw [hresult] at heffect hafter
          exact ih value heffect hafter
      | halted reason after =>
          rw [hresult] at heffect
          exact heffect

theorem safe_settle (prog : Prog A ℓ ε α) (locals : ℓ) (shared : ω) :
    Safe S D I E Q (prog.settle locals).1 (prog.settle locals).2 shared ↔
      Safe S D I E Q prog locals shared := by
  induction prog generalizing locals with
  | loc update next ih => exact ih _ _
  | _ => exact Iff.rfl

/-- Where the postconditions are stable, so is safety. -/
theorem Safe.interfere {prog : Prog A ℓ ε α}
    (hQ : ∀ value locals, D.Stable S (Q value locals))
    (hE : ∀ reason locals, D.Stable S (E reason locals)) :
    ∀ locals, D.Stable S (Safe S D I E Q prog locals) := by
  induction prog with
  | pure value => exact hQ value
  | halt reason => exact hE reason
  | loc update next ih => exact fun locals => ih _ _
  | act access next ih =>
      intro locals event shared hevent hsafe later henv
      exact hsafe later (ReflTransGen.head ⟨event, hevent, rfl⟩ henv)

theorem Safe.always {prog : Prog A ℓ ε α}
    (hQ : ∀ value locals shared, Q value locals shared → I shared)
    (hE : ∀ reason locals shared, E reason locals shared → I shared) :
    ∀ {locals shared}, Safe S D I E Q prog locals shared → I shared := by
  induction prog with
  | pure value => exact hQ value _ _
  | halt reason => exact hE reason _ _
  | loc update next ih => exact ih _
  | act access next ih => exact fun hsafe => (hsafe _ ReflTransGen.refl).1

end Safety

section Answers

variable (S : System A ℓ ε ω ν κ) (D : Discipline A ℓ ε ω ν κ)

/-- What a program may return, with admitted steps of the other threads before each of
its accesses. -/
inductive Returns : Prog A ℓ ε α → ℓ → ω → α → ℓ → ω → Prop where
  | pure (value : α) (locals : ℓ) (shared : ω) :
      Returns (.pure value) locals shared value locals shared
  | loc {γ : Type} {update : ℓ → γ × ℓ} {next : γ → Prog A ℓ ε α} {locals locals' : ℓ}
      {shared shared' : ω} {result : α}
      (hrest : Returns (next (update locals).1) (update locals).2 shared result locals' shared') :
      Returns (.loc update next) locals shared result locals' shared'
  | act {γ : Type} {access : A γ} {next : γ → Prog A ℓ ε α} {locals locals' : ℓ}
      {shared later after shared' : ω} {fails : Bool} {value : γ} {result : α}
      (henv : ReflTransGen (D.Env S) shared later) (haccess : D.access access locals later)
      (hexec : S.exec access fails later = .done value after)
      (hrest : Returns (next value) locals after result locals' shared') :
      Returns (.act access next) locals shared result locals' shared'

variable {S D}

theorem Returns.bind {prog : Prog A ℓ ε α} {rest : α → Prog A ℓ ε β} {value : α} {result : β}
    {locals locals' locals'' : ℓ} {shared shared' shared'' : ω}
    (hfirst : Returns S D prog locals shared value locals' shared')
    (hrest : Returns S D (rest value) locals' shared' result locals'' shared'') :
    Returns S D (prog.bind rest) locals shared result locals'' shared'' := by
  induction hfirst with
  | pure value locals shared => exact hrest
  | loc _ ih => exact .loc (ih hrest)
  | act henv haccess hexec _ ih => exact .act henv haccess hexec (ih hrest)

/-- The outcome of a program that nobody interrupts and whose accesses do not fail. -/
def alone (S : System A ℓ ε ω ν κ) : Prog A ℓ ε α → ℓ → ω → Option (α × ℓ × ω)
  | .pure value, locals, shared => some (value, locals, shared)
  | .halt _, _, _ => none
  | .loc update next, locals, shared => alone S (next (update locals).1) (update locals).2 shared
  | .act access next, locals, shared =>
      match S.exec access false shared with
      | .done value after => alone S (next value) locals after
      | _ => none

theorem alone_bind {prog : Prog A ℓ ε α} {rest : α → Prog A ℓ ε β} {value : α}
    {locals locals' : ℓ} {shared shared' : ω}
    (h : alone S prog locals shared = some (value, locals', shared')) :
    alone S (prog.bind rest) locals shared = alone S (rest value) locals' shared' := by
  induction prog generalizing locals shared with
  | pure other =>
      obtain ⟨rfl, rfl, rfl⟩ : other = value ∧ locals = locals' ∧ shared = shared' := by
        simpa [alone] using h
      rfl
  | halt reason => simp [alone] at h
  | loc update next ih => exact ih _ h
  | act access next ih =>
      cases hexec : S.exec access false shared with
      | done other after =>
          simp only [alone, hexec] at h
          simp only [Prog.act_bind, alone, hexec]
          exact ih other h
      | _ => simp [alone, hexec] at h

theorem returns_of_alone
    (haccess : ∀ {γ : Type} (access : A γ) locals shared, D.access access locals shared)
    {prog : Prog A ℓ ε α} {locals locals' : ℓ} {shared shared' : ω} {result : α}
    (h : alone S prog locals shared = some (result, locals', shared')) :
    Returns S D prog locals shared result locals' shared' := by
  induction prog generalizing locals shared with
  | pure value =>
      obtain ⟨rfl, rfl, rfl⟩ : value = result ∧ locals = locals' ∧ shared = shared' := by
        simpa [alone] using h
      exact .pure _ _ _
  | halt reason => simp [alone] at h
  | loc update next ih => exact .loc (ih _ h)
  | act access next ih =>
      cases hexec : S.exec access false shared with
      | done value after =>
          simp only [alone, hexec] at h
          exact .act .refl (haccess access locals shared) hexec (ih value h)
      | _ => simp [alone, hexec] at h

/-- A safe program returns nothing but what its postcondition allows. -/
theorem Safe.returns {I : ω → Prop} {E : ε → ℓ → ω → Prop} {Q : α → ℓ → ω → Prop}
    {prog : Prog A ℓ ε α} {locals locals' : ℓ} {shared shared' : ω} {result : α}
    (hsafe : Safe S D I E Q prog locals shared)
    (hreturns : Returns S D prog locals shared result locals' shared') :
    Q result locals' shared' := by
  induction hreturns with
  | pure value locals shared => exact hsafe
  | loc _ ih => exact ih hsafe
  | @act _ _ _ _ _ _ _ _ _ fails _ _ henv haccess hexec _ ih =>
      have heffect := (hsafe _ henv).2 fails haccess
      rw [hexec] at heffect
      exact ih heffect

end Answers

section Runs

variable {S : System A ℓ ε ω ν κ} {D : Discipline A ℓ ε ω ν κ}
variable {I : ω → Prop} {E : ε → ℓ → ω → Prop} {R : ℓ → ω → Prop}

/-- A configuration whose remaining program is safe. -/
def SafeConfig (S : System A ℓ ε ω ν κ) (D : Discipline A ℓ ε ω ν κ)
    (I : ω → Prop) (E : ε → ℓ → ω → Prop) (R : ℓ → ω → Prop)
    (c : Config A ℓ ε ω) : Prop :=
  Safe S D I E (fun _ => R) c.prog c.locals c.shared

theorem SafeConfig.advance {c : Config A ℓ ε ω} {fails : Bool}
    (hadmits : D.admits (.step fails) c) (hsafe : SafeConfig S D I E R c) :
    SafeConfig S D I E R (S.advance fails c) := by
  obtain ⟨locals, shared, prog⟩ := c
  cases prog with
  | pure value => exact hsafe
  | halt reason => exact hsafe
  | loc update next => exact hsafe
  | act access next =>
      have heffect := (hsafe shared ReflTransGen.refl).2 fails (hadmits access next rfl)
      cases hexec : S.exec access fails shared with
      | blocked => simpa only [System.advance, hexec] using hsafe
      | done value after =>
          simp only [System.advance, hexec] at heffect ⊢
          exact (safe_settle (next value) locals after).2 heffect
      | halted reason after =>
          simp only [System.advance, hexec] at heffect ⊢
          exact heffect

/-- The invariant rule for runs: stable postconditions, and every admitted call
safe from a safe configuration. -/
theorem SafeConfig.run
    (hR : ∀ locals, D.Stable S (R locals))
    (hE : ∀ reason locals, D.Stable S (E reason locals)) :
    ∀ (labels : List (Label ν κ)) (c : Config A ℓ ε ω),
      (∀ name c, .call name ∈ labels → D.call name c → SafeConfig S D I E R c →
        Safe S D I E (fun _ => R) (S.body name) c.locals (S.enter name c.shared)) →
      D.follows S labels c → SafeConfig S D I E R c → SafeConfig S D I E R (S.run labels c) := by
  intro labels
  induction labels with
  | nil => exact fun c _ _ hsafe => hsafe
  | cons label labels ih =>
      intro c hcall hfollows hsafe
      apply ih _ (fun name c hmem => hcall name c (List.mem_cons_of_mem _ hmem)) hfollows.2
      cases label with
      | step fails => exact hsafe.advance hfollows.1
      | other event =>
          exact Safe.interfere (fun _ => hR) hE c.locals event c.shared hfollows.1 hsafe
      | call name =>
          exact (safe_settle (S.body name) c.locals (S.enter name c.shared)).2
            (hcall name c (by simp) hfollows.1 hsafe)

theorem SafeConfig.always (hR : ∀ locals shared, R locals shared → I shared)
    (hE : ∀ reason locals shared, E reason locals shared → I shared) {c : Config A ℓ ε ω}
    (hsafe : SafeConfig S D I E R c) : I c.shared :=
  Safe.always (fun _ => hR) hE hsafe

end Runs

section Simulation

variable {ω' ν' : Type}

def Effect.map (f : ω → ω') : Effect ω ε β → Effect ω' ε β
  | .blocked => .blocked
  | .done value shared => .done value (f shared)
  | .halted reason shared => .halted reason (f shared)

def Config.map (f : ω → ω') (c : Config A ℓ ε ω) : Config A ℓ ε ω' :=
  ⟨c.locals, f c.shared, c.prog⟩

/-- A system that knows more than another one: forgetting the rest, its accesses and calls are
the other's, and its steps are made of admitted steps of the other. -/
structure Forgets (S : System A ℓ ε ω ν κ) (D : Discipline A ℓ ε ω ν κ)
    (T : System A ℓ ε ω' ν' κ) (D' : Discipline A ℓ ε ω' ν' κ) (f : ω → ω') : Prop where
  body : ∀ name, S.body name = T.body name
  enter : ∀ name shared, f (S.enter name shared) = T.enter name (f shared)
  exec : ∀ {γ : Type} (access : A γ) fails shared,
    T.exec access fails (f shared) = (S.exec access fails shared).map f
  event : ∀ event shared, D.event event shared →
    ReflTransGen (D'.Env T) (f shared) (f (S.interfere event shared))
  access : ∀ {γ : Type} (access : A γ) locals shared,
    D.access access locals shared → D'.access access locals (f shared)
  call : ∀ name c, D.call name c → D'.call name (c.map f)

variable {S : System A ℓ ε ω ν κ} {D : Discipline A ℓ ε ω ν κ}
variable {T : System A ℓ ε ω' ν' κ} {D' : Discipline A ℓ ε ω' ν' κ} {f : ω → ω'}

theorem exists_run_of_env {locals : ℓ} {prog : Prog A ℓ ε Unit} {before after : ω}
    (henv : ReflTransGen (D.Env S) before after) :
    ∃ labels, D.follows S labels ⟨locals, before, prog⟩ ∧
      S.run labels ⟨locals, before, prog⟩ = ⟨locals, after, prog⟩ := by
  induction henv with
  | refl => exact ⟨[], trivial, rfl⟩
  | tail _ hstep ih =>
      obtain ⟨labels, hfollows, hrun⟩ := ih
      obtain ⟨event, hevent, rfl⟩ := hstep
      refine ⟨labels ++ [.other event], ?_, ?_⟩
      · rw [Discipline.follows_append, hrun]
        exact ⟨hfollows, hevent, trivial⟩
      · rw [System.run_append, hrun]
        rfl

theorem Forgets.next (h : Forgets S D T D' f) {label : Label ν κ} {c : Config A ℓ ε ω}
    (hadmits : D.admits label c) :
    ∃ labels, D'.follows T labels (c.map f) ∧ T.run labels (c.map f) = (S.next label c).map f := by
  cases label with
  | other event => exact exists_run_of_env (h.event event c.shared hadmits)
  | call name =>
      refine ⟨[.call name], ⟨h.call name c hadmits, trivial⟩, ?_⟩
      change T.next (.call name) (c.map f) = _
      simp only [System.next, Config.map, h.body, h.enter]
  | step fails =>
      obtain ⟨locals, shared, prog⟩ := c
      refine ⟨[.step fails], ⟨?_, trivial⟩, ?_⟩
      · exact fun access next hprog => h.access access locals shared (hadmits access next hprog)
      · change T.advance fails ⟨locals, f shared, prog⟩ = (S.advance fails _).map f
        cases prog with
        | act access next =>
            simp only [System.advance, h.exec]
            cases S.exec access fails shared <;> rfl
        | _ => rfl

/-- A run of the richer system is one of the other. -/
theorem Forgets.run (h : Forgets S D T D' f) (labels : List (Label ν κ)) {c : Config A ℓ ε ω}
    (hfollows : D.follows S labels c) :
    ∃ plain, D'.follows T plain (c.map f) ∧ T.run plain (c.map f) = (S.run labels c).map f := by
  induction labels generalizing c with
  | nil => exact ⟨[], trivial, rfl⟩
  | cons label labels ih =>
      obtain ⟨first, hfirst, hnext⟩ := h.next hfollows.1
      obtain ⟨rest, hrest, hrun⟩ := ih hfollows.2
      refine ⟨first ++ rest, ?_, ?_⟩
      · rw [Discipline.follows_append, hnext]
        exact ⟨hfirst, hrest⟩
      · rw [System.run_append, hnext]
        exact hrun

end Simulation

section Faults

variable (S : System A ℓ ε ω ν κ)

/-- What a program ends with that nobody interrupts and whose `n`-th access, counted from
zero, ends it: that one may be made to fail, those before it are not. -/
def haltingAt (fails : Bool) : ℕ → Prog A ℓ ε α → ℓ → ω → Option (ε × ℓ × ω)
  | n, .loc update next, locals, shared =>
      haltingAt fails n (next (update locals).1) (update locals).2 shared
  | 0, .act access _, locals, shared =>
      match S.exec access fails shared with
      | .halted reason after => some (reason, locals, after)
      | _ => none
  | n + 1, .act access next, locals, shared =>
      match S.exec access false shared with
      | .done value after => haltingAt fails n (next value) locals after
      | _ => none
  | _, _, _, _ => none

/-- The accesses of a program that nobody interrupts, up to its return or its end. -/
def accesses : Prog A ℓ ε α → ℓ → ω → ℕ
  | .loc update next, locals, shared => accesses (next (update locals).1) (update locals).2 shared
  | .act access next, locals, shared =>
      match S.exec access false shared with
      | .done value after => accesses (next value) locals after + 1
      | _ => 1
  | _, _, _ => 0

/-- The outcome of a program that nobody interrupts, whose accesses fail as told. -/
def outcome : (ℕ → Bool) → Prog A ℓ ε α → ℓ → ω → Option (α × ℓ × ω)
  | _, .pure value, locals, shared => some (value, locals, shared)
  | _, .halt _, _, _ => none
  | fails, .loc update next, locals, shared =>
      outcome fails (next (update locals).1) (update locals).2 shared
  | fails, .act access next, locals, shared =>
      match S.exec access (fails 0) shared with
      | .done value after => outcome (fun i => fails (i + 1)) (next value) locals after
      | _ => none

/-- What others may see of it: the shared state before each access and at the end. -/
def visible : (ℕ → Bool) → Prog A ℓ ε α → ℓ → ω → List ω
  | fails, .loc update next, locals, shared =>
      visible fails (next (update locals).1) (update locals).2 shared
  | fails, .act access next, locals, shared =>
      shared :: match S.exec access (fails 0) shared with
        | .blocked => []
        | .done value after => visible (fun i => fails (i + 1)) (next value) locals after
        | .halted _ after => [after]
  | _, _, _, shared => [shared]

/-- Nobody interrupts. -/
def undisturbed : Discipline A ℓ ε ω ν κ where
  event := fun _ _ => False
  access := fun _ _ _ => True
  call := fun _ _ => True

variable {S} {fails : Bool} {locals : ℓ} {shared : ω}

theorem safe_undisturbed {E : ε → ℓ → ω → Prop} {Q : α → ℓ → ω → Prop} {access : A β}
    {next : β → Prog A ℓ ε α}
    (heffect : ∀ fails, match S.exec access fails shared with
      | .blocked => True
      | .done value after => Safe S undisturbed (fun _ => True) E Q (next value) locals after
      | .halted reason after => E reason locals after) :
    Safe S undisturbed (fun _ => True) E Q (.act access next) locals shared := by
  have hstill : undisturbed.Stable S fun later => later = shared :=
    fun _ _ hevent => absurd hevent id
  exact Safe.act_still hstill trivial fun fails _ => heffect fails

/-- A safe program ends with nothing but what it may end with. -/
theorem Safe.haltingAt {E : ε → ℓ → ω → Prop} {Q : α → ℓ → ω → Prop} {prog : Prog A ℓ ε α}
    {reason : ε} {locals' : ℓ} {shared' : ω}
    (hsafe : Safe S undisturbed (fun _ => True) E Q prog locals shared) {n : ℕ}
    (hhalting : haltingAt S fails n prog locals shared = some (reason, locals', shared')) :
    E reason locals' shared' := by
  induction prog generalizing locals shared n with
  | pure value => cases n <;> simp [Interleaving.haltingAt] at hhalting
  | halt reason => cases n <;> simp [Interleaving.haltingAt] at hhalting
  | loc update next ih =>
      cases n <;> exact ih _ hsafe hhalting
  | act access next ih =>
      have heffect := (hsafe shared .refl).2
      cases n with
      | zero =>
          have hfails := heffect fails trivial
          cases hexec : S.exec access fails shared with
          | halted other after =>
              simp only [Interleaving.haltingAt, hexec, Option.some.injEq, Prod.mk.injEq] at hhalting
              obtain ⟨rfl, rfl, rfl⟩ := hhalting
              simpa only [hexec] using hfails
          | _ => simp [Interleaving.haltingAt, hexec] at hhalting
      | succ n =>
          have hdone := heffect false trivial
          cases hexec : S.exec access false shared with
          | done value after =>
              simp only [Interleaving.haltingAt, hexec] at hhalting
              rw [hexec] at hdone
              exact ih value hdone hhalting
          | _ => simp [Interleaving.haltingAt, hexec] at hhalting

/-- The last access is in the first program, or the first program has returned before. -/
theorem haltingAt_bind {prog : Prog A ℓ ε α} {rest : α → Prog A ℓ ε β} {n : ℕ}
    {result : ε × ℓ × ω} (h : haltingAt S fails n (prog.bind rest) locals shared = some result) :
    (n < accesses S prog locals shared ∧ haltingAt S fails n prog locals shared = some result) ∨
      (accesses S prog locals shared ≤ n ∧ ∃ value locals' shared',
        alone S prog locals shared = some (value, locals', shared') ∧
        haltingAt S fails (n - accesses S prog locals shared) (rest value) locals' shared' =
          some result) := by
  induction prog generalizing locals shared n with
  | pure value => exact .inr ⟨Nat.zero_le n, value, locals, shared, rfl, h⟩
  | halt reason => cases n <;> simp [haltingAt] at h
  | loc update next ih => cases n <;> exact ih _ h
  | act access next ih =>
      cases n with
      | zero =>
          apply Or.inl
          refine ⟨?_, h⟩
          simp only [accesses]
          cases S.exec access false shared <;> exact Nat.succ_pos _
      | succ n =>
          cases hexec : S.exec access false shared with
          | done value after =>
              simp only [Prog.act_bind, haltingAt, hexec] at h
              simp only [haltingAt, accesses, alone, hexec, Nat.add_lt_add_iff_right,
                Nat.add_le_add_iff_right, Nat.add_sub_add_right]
              exact ih value h
          | _ => simp [haltingAt, hexec] at h

theorem accesses_bind {prog : Prog A ℓ ε α} {rest : α → Prog A ℓ ε β} {value : α} {locals' : ℓ}
    {shared' : ω} (h : alone S prog locals shared = some (value, locals', shared')) :
    accesses S (prog.bind rest) locals shared =
      accesses S prog locals shared + accesses S (rest value) locals' shared' := by
  induction prog generalizing locals shared with
  | pure other =>
      obtain ⟨rfl, rfl, rfl⟩ : other = value ∧ locals = locals' ∧ shared = shared' := by
        simpa [alone] using h
      exact (Nat.zero_add _).symm
  | halt reason => simp [alone] at h
  | loc update next ih => exact ih _ h
  | act access next ih =>
      cases hexec : S.exec access false shared with
      | done other after =>
          simp only [alone, hexec] at h
          simp only [Prog.act_bind, accesses, hexec, ih other h]
          exact Nat.add_right_comm _ _ _
      | _ => simp [alone, hexec] at h

/-- It is an access that ends the program. -/
theorem exec_of_haltingAt {prog : Prog A ℓ ε α} {n : ℕ} {reason : ε} {locals' : ℓ} {shared' : ω}
    (h : haltingAt S fails n prog locals shared = some (reason, locals', shared')) :
    ∃ (γ : Type) (access : A γ) (before : ω), S.exec access fails before = .halted reason shared' := by
  induction prog generalizing locals shared n with
  | pure value => cases n <;> simp [haltingAt] at h
  | halt reason => cases n <;> simp [haltingAt] at h
  | loc update next ih => cases n <;> exact ih _ h
  | @act γ access next ih =>
      cases n with
      | zero =>
          cases hexec : S.exec access fails shared with
          | halted other after =>
              simp only [haltingAt, hexec, Option.some.injEq, Prod.mk.injEq] at h
              obtain ⟨rfl, -, rfl⟩ := h
              exact ⟨γ, access, shared, hexec⟩
          | _ => simp [haltingAt, hexec] at h
      | succ n =>
          cases hexec : S.exec access false shared with
          | done value after =>
              simp only [haltingAt, hexec] at h
              exact ih value h
          | _ => simp [haltingAt, hexec] at h

/-- It is what a run of the caller alone comes to. -/
theorem run_of_haltingAt {prog : Prog A ℓ ε Unit} {n : ℕ} {reason : ε} {locals' : ℓ}
    {shared' : ω} (h : haltingAt S fails n prog locals shared = some (reason, locals', shared')) :
    S.run (List.replicate n (.step false) ++ [.step fails])
      ⟨(prog.settle locals).2, shared, (prog.settle locals).1⟩ = ⟨locals', shared', .halt reason⟩ := by
  induction prog generalizing locals shared n with
  | pure value => cases n <;> simp [haltingAt] at h
  | halt reason => cases n <;> simp [haltingAt] at h
  | loc update next ih => cases n <;> exact ih _ h
  | act access next ih =>
      cases n with
      | zero =>
          cases hexec : S.exec access fails shared with
          | halted other after =>
              simp only [haltingAt, hexec, Option.some.injEq, Prod.mk.injEq] at h
              obtain ⟨rfl, rfl, rfl⟩ := h
              simp only [List.replicate_zero, List.nil_append, System.run, System.next,
                System.advance, Prog.settle, hexec]
          | _ => simp [haltingAt, hexec] at h
      | succ n =>
          cases hexec : S.exec access false shared with
          | done value after =>
              simp only [haltingAt, hexec] at h
              simp only [List.replicate_succ, List.cons_append, System.run, System.next,
                System.advance, Prog.settle, hexec]
              exact ih value h
          | _ => simp [haltingAt, hexec] at h

end Faults

section Locals

/-- What a program establishes about the caller's own state, whatever the accesses answer,
when it makes no other accesses than `B` allows. -/
def Ensures (B : (γ : Type) → A γ → Prop) (Q : α → ℓ → Prop) : Prog A ℓ ε α → ℓ → Prop
  | .pure value, locals => Q value locals
  | .halt _, _ => True
  | .loc update next, locals => Ensures B Q (next (update locals).1) (update locals).2
  | .act access next, locals => B _ access ∧ ∀ value, Ensures B Q (next value) locals

variable {B : (γ : Type) → A γ → Prop} {Q : α → ℓ → Prop}

@[simp]
theorem ensures_pure {value : α} {locals : ℓ} :
    Ensures B Q (.pure value : Prog A ℓ ε α) locals ↔ Q value locals := Iff.rfl

@[simp]
theorem ensures_halt {reason : ε} {locals : ℓ} : Ensures B Q (.halt reason : Prog A ℓ ε α) locals ↔ True := Iff.rfl

@[simp]
theorem ensures_loc {update : ℓ → β × ℓ} {next : β → Prog A ℓ ε α} {locals : ℓ} :
    Ensures B Q (.loc update next) locals ↔
      Ensures B Q (next (update locals).1) (update locals).2 := Iff.rfl

@[simp]
theorem ensures_act {access : A β} {next : β → Prog A ℓ ε α} {locals : ℓ} :
    Ensures B Q (.act access next) locals ↔ B _ access ∧ ∀ value, Ensures B Q (next value) locals :=
  Iff.rfl

theorem Ensures.mono {R : α → ℓ → Prop} {prog : Prog A ℓ ε α}
    (himp : ∀ value locals, Q value locals → R value locals) :
    ∀ {locals}, Ensures B Q prog locals → Ensures B R prog locals := by
  induction prog with
  | pure value => exact himp value _
  | halt reason => exact id
  | loc update next ih => exact ih _
  | act access next ih => exact fun hens => ⟨hens.1, fun value => ih value (hens.2 value)⟩

theorem Ensures.bind {R : β → ℓ → Prop} {prog : Prog A ℓ ε α} {rest : α → Prog A ℓ ε β}
    (hrest : ∀ value locals, Q value locals → Ensures B R (rest value) locals) :
    ∀ {locals}, Ensures B Q prog locals → Ensures B R (prog.bind rest) locals := by
  induction prog with
  | pure value => exact hrest value _
  | halt reason => exact id
  | loc update next ih => exact ih _
  | act access next ih => exact fun hens => ⟨hens.1, fun value => ih value (hens.2 value)⟩

/-- An assertion that the other threads and the allowed accesses keep holds throughout. -/
theorem Ensures.safe {S : System A ℓ ε ω ν κ} {D : Discipline A ℓ ε ω ν κ} {I P : ω → Prop}
    {E : ε → ℓ → ω → Prop} (hstable : D.Stable S P) (hI : ∀ shared, P shared → I shared)
    (hE : ∀ reason locals shared, P shared → E reason locals shared)
    (hexec : ∀ {γ : Type} (access : A γ) fails shared, B _ access → P shared →
      P ((S.exec access fails shared).after shared)) {prog : Prog A ℓ ε α} :
    ∀ {locals shared}, Ensures B Q prog locals → P shared →
      Safe S D I E (fun value locals shared => Q value locals ∧ P shared) prog locals shared := by
  induction prog with
  | pure value => exact fun hens hP => ⟨hens, hP⟩
  | halt reason => exact fun _ hP => hE reason _ _ hP
  | loc update next ih => exact fun hens hP => ih _ hens hP
  | act access next ih =>
      intro locals shared hens hP
      apply Safe.act hstable hI _ hP
      intro ready hready fails _
      have hafter := hexec access fails ready hens.1 hready
      cases heffect : S.exec access fails ready with
      | blocked => trivial
      | done value after =>
          rw [heffect] at hafter
          exact ih value (hens.2 value) hafter
      | halted reason after =>
          rw [heffect] at hafter
          exact hE reason locals after hafter

/-- Nothing is asked. -/
theorem ensures_true (prog : Prog A ℓ ε α) :
    ∀ locals, Ensures (fun _ _ => True) (fun _ _ => True) prog locals := by
  induction prog with
  | pure value => exact fun _ => trivial
  | halt reason => exact fun _ => trivial
  | loc update next ih => exact fun locals => ih _ _
  | act access next ih => exact fun locals => ⟨trivial, fun value => ih value locals⟩

end Locals

section Moves

/-- A program that takes the caller's own state along a relation, whatever the accesses
answer. -/
def Moves (B : (γ : Type) → A γ → Prop) (R : ℓ → ℓ → Prop) (prog : Prog A ℓ ε α) : Prop :=
  ∀ locals, Ensures B (fun _ after => R locals after) prog locals

namespace Moves

variable {B : (γ : Type) → A γ → Prop} {R : ℓ → ℓ → Prop} {prog : Prog A ℓ ε α}

theorem halt (reason : ε) : Moves B R (.halt reason : Prog A ℓ ε α) := fun _ => trivial

theorem act {access : A β} {next : β → Prog A ℓ ε α} (haccess : B β access)
    (hnext : ∀ value, Moves B R (next value)) : Moves B R (.act access next) :=
  fun locals => ⟨haccess, fun value => hnext value locals⟩

/-- Reading the own state does not move it. -/
theorem read {next : ℓ → Prog A ℓ ε α} (hnext : ∀ locals, Moves B R (next locals)) :
    Moves B R (.loc (fun locals => (locals, locals)) next) :=
  fun locals => hnext locals locals

theorem modify {change : ℓ → ℓ} (hchange : ∀ locals, R locals (change locals)) :
    Moves B R (Prog.modify change : Prog A ℓ ε Unit) := hchange

theorem mono {R' : ℓ → ℓ → Prop} (himp : ∀ before after, R before after → R' before after)
    (h : Moves B R prog) : Moves B R' prog := by
  intro locals
  apply (h locals).mono
  exact fun _ after hafter => himp locals after hafter

theorem bind [IsTrans ℓ R] {rest : α → Prog A ℓ ε β} (h : Moves B R prog)
    (hrest : ∀ value, Moves B R (rest value)) : Moves B R (prog.bind rest) := by
  intro locals
  apply Ensures.bind _ (h locals)
  intro value middle hmiddle
  apply (hrest value middle).mono
  exact fun _ after hafter => IsTrans.trans locals middle after hmiddle hafter

variable [Std.Refl R]

theorem of_eq (h : Moves B Eq prog) : Moves B R prog := by
  apply h.mono
  rintro before after rfl
  exact refl before

theorem value (result : α) : Moves B R (.pure result : Prog A ℓ ε α) := fun locals => refl locals

theorem perform {access : A β} (haccess : B β access) :
    Moves B R (Prog.perform access : Prog A ℓ ε β) :=
  act haccess value

end Moves

end Moves

end BitcoinIndexer.Interleaving
