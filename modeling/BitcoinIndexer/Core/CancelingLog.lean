import Mathlib.Data.List.Basic
import Mathlib.Data.List.Induction

/-!
# The canceling protocol

An append-only log whose entries either push a new top or cancel the present one.
`Replays` is the reader's side: it follows the log from one stack (the newest last)
to another and accepts a push only where `links` allows it.
-/

namespace BitcoinIndexer.CancelingLog

/-- A log entry: `revert` cancels what it names, otherwise it is put on top. -/
structure Entry (ι : Type) where
  revert : Bool
  name : ι
  deriving DecidableEq

variable {ι κ : Type}

/-- The entry under another name. -/
def Entry.map (f : ι → κ) (entry : Entry ι) : Entry κ :=
  ⟨entry.revert, f entry.name⟩

def Replays (links : List ι → ι → Prop) : List (Entry ι) → List ι → List ι → Prop
  | [], stack, final => stack = final
  | entry :: log, stack, final =>
      if entry.revert then
        stack.getLast? = some entry.name ∧ Replays links log stack.dropLast final
      else links stack entry.name ∧ Replays links log (stack ++ [entry.name]) final

instance [DecidableEq ι] (links : List ι → ι → Prop)
    [∀ stack name, Decidable (links stack name)] (log : List (Entry ι))
    (stack final : List ι) : Decidable (Replays links log stack final) := by
  induction log generalizing stack with
  | nil => exact inferInstanceAs (Decidable (stack = final))
  | cons entry log ih =>
      unfold Replays
      have := ih
      infer_instance

def pushes (names : List ι) : List (Entry ι) :=
  names.map fun name => ⟨false, name⟩

/-- Cancel `names`, the newest first. -/
def reverts (names : List ι) : List (Entry ι) :=
  names.reverse.map fun name => ⟨true, name⟩

theorem map_pushes (f : ι → κ) (names : List ι) :
    (pushes names).map (Entry.map f) = pushes (names.map f) := by
  rw [pushes, pushes, List.map_map, List.map_map]
  rfl

theorem map_reverts (f : ι → κ) (names : List ι) :
    (reverts names).map (Entry.map f) = reverts (names.map f) := by
  rw [reverts, reverts, List.map_map, ← List.map_reverse, List.map_map]
  rfl

variable {links : List ι → ι → Prop} {log more : List (Entry ι)}
variable {stack middle final : List ι}

theorem replays_append :
    Replays links (log ++ more) stack final ↔
      ∃ middle, Replays links log stack middle ∧ Replays links more middle final := by
  induction log generalizing stack with
  | nil => simp [Replays]
  | cons entry log ih =>
      cases hrevert : entry.revert <;> simp [Replays, hrevert, ih, and_assoc]

theorem Replays.append (hlog : Replays links log stack middle)
    (hmore : Replays links more middle final) : Replays links (log ++ more) stack final :=
  replays_append.2 ⟨middle, hlog, hmore⟩

/-- A reader that accepts more pushes replays the same log. -/
theorem Replays.mono {links' : List ι → ι → Prop}
    (himp : ∀ stack name, links stack name → links' stack name) :
    ∀ {stack}, Replays links log stack final → Replays links' log stack final := by
  induction log with
  | nil => exact id
  | cons entry log ih =>
      intro stack h
      cases hrevert : entry.revert <;> simp only [Replays, hrevert] at h ⊢
      · exact ⟨himp _ _ h.1, ih h.2⟩
      · exact ⟨h.1, ih h.2⟩

theorem replays_reverts (kept names : List ι) :
    Replays links (reverts names) (kept ++ names) kept := by
  induction names using List.reverseRecOn with
  | nil => simp [reverts, Replays]
  | append_singleton names name ih =>
      simp only [reverts, List.reverse_append, List.reverse_singleton, List.map_cons,
        List.singleton_append, Replays, if_true]
      refine ⟨by simp, ?_⟩
      have hdrop : (kept ++ (names ++ [name])).dropLast = kept ++ names := by
        rw [← List.append_assoc, List.dropLast_concat]
      rw [hdrop]
      exact ih

/-- Names that link one after the other can be pushed. -/
theorem replays_pushes (names : List ι)
    (hlinks : ∀ before name after, names = before ++ name :: after →
      links (stack ++ before) name) :
    Replays links (pushes names) stack (stack ++ names) := by
  induction names generalizing stack with
  | nil => simp [pushes, Replays]
  | cons name names ih =>
      simp only [pushes, List.map_cons, Replays, Bool.false_eq_true, if_false]
      refine ⟨by simpa using hlinks [] name names rfl, ?_⟩
      have hrest := @ih (stack ++ [name]) fun before next after hsplit => by
        simpa using hlinks (name :: before) next after (by simp [hsplit])
      simpa [pushes] using hrest

/-- What holds of every name that may be pushed holds of every name in the log. -/
theorem Replays.forall_names {P : ι → Prop} (hlinks : ∀ stack name, links stack name → P name) :
    ∀ {stack}, Replays links log stack final → (∀ name ∈ stack, P name) →
      ∀ entry ∈ log, P entry.name := by
  induction log with
  | nil => simp
  | cons entry log ih =>
      intro stack h hstack other hother
      have hhead : P entry.name ∧ ∀ name ∈ log.map Entry.name, P name := by
        cases hrevert : entry.revert <;> simp only [Replays, hrevert] at h
        · refine ⟨hlinks _ _ h.1, ?_⟩
          rw [List.forall_mem_map]
          apply ih h.2
          intro name hname
          obtain hold | hnew := List.mem_append.1 hname
          · exact hstack name hold
          · rw [List.mem_singleton.1 hnew]
            exact hlinks _ _ h.1
        · refine ⟨hstack _ (List.mem_of_getLast? h.1), ?_⟩
          rw [List.forall_mem_map]
          exact ih h.2 fun name hname => hstack name ((List.dropLast_subset _) hname)
      obtain rfl | hlog := List.mem_cons.1 hother
      · exact hhead.1
      · exact hhead.2 _ (List.mem_map_of_mem hlog)

end BitcoinIndexer.CancelingLog
