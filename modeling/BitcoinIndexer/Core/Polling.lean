import Mathlib.Data.Int.Order.Basic
import Mathlib.Data.List.Basic
import Mathlib.Order.Basic

/-!
# Polling an append-only log

The rows of a log have ascending keys, and a reader keeps the key of the last row it has
read.  What lies behind that key is what it has not read, no matter how the log has grown
since.
-/

namespace BitcoinIndexer.Polling

variable {α β : Type} (key : α → ℕ)

def Ascending (log : List α) : Prop := log.Pairwise fun before after => key before < key after

/-- The key of the last row, below all keys if there is none. -/
def position (read : List α) : ℤ := (read.getLast?.map fun row => (key row : ℤ)).getD (-1)

def rowsAfter (cursor : ℤ) (log : List α) : List α := log.filter fun row => cursor < key row

variable {key} {log more read : List α}

@[simp]
theorem position_nil : position key [] = -1 := rfl

@[simp]
theorem position_concat (read : List α) (row : α) : position key (read ++ [row]) = key row := by
  simp [position]

theorem position_map (f : β → α) (rows : List β) :
    position key (rows.map f) = position (key ∘ f) rows := by
  simp [position, Function.comp_def]

theorem key_le_position (h : Ascending key read) {row : α} (hmem : row ∈ read) :
    (key row : ℤ) ≤ position key read := by
  obtain rfl | ⟨front, last, rfl⟩ := List.eq_nil_or_concat' read
  · exact absurd hmem List.not_mem_nil
  · rw [position_concat]
    obtain hfront | hlast := List.mem_append.1 hmem
    · have hlt : key row < key last :=
        (List.pairwise_append.1 h).2.2 row hfront last (List.mem_singleton_self last)
      exact Int.ofNat_le.2 (Nat.le_of_lt hlt)
    · rw [List.mem_singleton.1 hlast]

theorem position_lt (h : Ascending key (read ++ more)) {row : α} (hmem : row ∈ more) :
    position key read < key row := by
  obtain rfl | ⟨front, last, rfl⟩ := List.eq_nil_or_concat' read
  · have hnonneg : (0 : ℤ) ≤ key row := Int.natCast_nonneg _
    rw [position_nil]
    omega
  · rw [position_concat]
    have hlast : last ∈ front ++ [last] := List.mem_append_right front (List.mem_singleton_self last)
    exact Int.ofNat_lt.2 ((List.pairwise_append.1 h).2.2 last hlast row hmem)

/-- Behind the position of a reader lies what it has not read. -/
theorem rowsAfter_position (h : Ascending key (read ++ more)) :
    rowsAfter key (position key read) (read ++ more) = more := by
  have hread : read.filter (fun row => position key read < key row) = [] := by
    apply List.filter_eq_nil_iff.2
    intro row hmem
    rw [decide_eq_true_iff, not_lt]
    exact key_le_position (List.pairwise_append.1 h).1 hmem
  have hmore : more.filter (fun row => position key read < key row) = more := by
    apply List.filter_eq_self.2
    intro row hmem
    exact decide_eq_true (position_lt h hmem)
  rw [rowsAfter, List.filter_append, hread, hmore, List.nil_append]

theorem rowsAfter_take (h : Ascending key log) (count : ℕ) :
    rowsAfter key (position key (log.take count)) log = log.drop count := by
  have hsplit : log.take count ++ log.drop count = log := List.take_append_drop count log
  rw [← hsplit] at h
  have hafter := rowsAfter_position h
  rwa [hsplit] at hafter

/-- The new position after some rows have been read. -/
theorem position_append (read rows : List α) :
    position key (read ++ rows) =
      (rows.getLast?.map fun row => (key row : ℤ)).getD (position key read) := by
  obtain rfl | ⟨front, last, rfl⟩ := List.eq_nil_or_concat' rows
  · simp
  · rw [← List.append_assoc, position_concat]
    simp

theorem take_of_initial (h : log <+: more) {count : ℕ} (hcount : count ≤ log.length) :
    more.take count = log.take count := by
  obtain ⟨rest, rfl⟩ := h
  exact List.take_append_of_le_length hcount

end BitcoinIndexer.Polling
