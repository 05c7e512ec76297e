import BitcoinIndexer.Db.UtxoSetCache

/-!
# How many values a statement has

The formatter looks at its count before it writes a value, and closes a statement that has
more than `SQL_INSERT_VALUES_SIZE` of them.  Its statements are therefore cut one value later
than the queries of `fetch_outputs`, whose chunks are closed when they are full.
-/

namespace BitcoinIndexer.StatementSize

open BitcoinIndexer.Tables
open BitcoinIndexer.Formatter
open BitcoinIndexer.UtxoCache

variable {α ρ : Type} {size : ℕ} {run values : List α}

/-! ## Chunks -/

/-- No chunk is empty or too long, and all but the last are full. -/
structure WithinSize (size : ℕ) (chunks : List (List α)) : Prop where
  nonempty : ∀ chunk ∈ chunks, 1 ≤ chunk.length
  le : ∀ chunk ∈ chunks, chunk.length ≤ size
  full : ∀ chunk ∈ chunks.dropLast, chunk.length = size

theorem chunksFrom_short (hlength : run.length + values.length < size) :
    chunksFrom size values run = if (run ++ values).isEmpty then [] else [run ++ values] := by
  induction values generalizing run with
  | nil => simp [chunksFrom]
  | cons value values ih =>
      rw [List.length_cons] at hlength
      have hnext : (run ++ [value]).length + values.length < size := by
        simpa [Nat.add_assoc, Nat.add_comm 1] using hlength
      have hopen : run.length + 1 < size := by omega
      rw [chunksFrom, if_pos hopen, ih hnext]
      simp

theorem chunksFrom_long (hrun : run.length < size) (hlength : size ≤ run.length + values.length) :
    chunksFrom size values run =
      (run ++ values).take size :: chunksFrom size ((run ++ values).drop size) [] := by
  induction values generalizing run with
  | nil => simp at hlength; omega
  | cons value values ih =>
      have hassoc : run ++ value :: values = (run ++ [value]) ++ values := by simp
      rw [chunksFrom, hassoc]
      by_cases hopen : run.length + 1 < size
      · rw [if_pos hopen]
        apply ih
        · simpa using hopen
        · simpa [Nat.add_assoc, Nat.add_comm 1] using hlength
      · have hfull : (run ++ [value]).length = size := by
          rw [List.length_append, List.length_singleton]
          omega
        rw [if_neg hopen, ← hfull, List.take_left, List.drop_left]

theorem withinSize_cons {chunk : List α} {chunks : List (List α)} (hsize : 0 < size)
    (hfull : chunk.length = size) (hrest : WithinSize size chunks) :
    WithinSize size (chunk :: chunks) where
  nonempty := by
    intro other hmem
    obtain rfl | hmem := List.mem_cons.1 hmem
    · omega
    · exact hrest.nonempty other hmem
  le := by
    intro other hmem
    obtain rfl | hmem := List.mem_cons.1 hmem
    · exact hfull.le
    · exact hrest.le other hmem
  full := by
    intro other hmem
    cases chunks with
    | nil => simp at hmem
    | cons next chunks =>
        rw [List.dropLast_cons_of_ne_nil (by simp)] at hmem
        obtain rfl | hmem := List.mem_cons.1 hmem
        · exact hfull
        · exact hrest.full other hmem

theorem withinSize_chunksFrom (hsize : 0 < size) (values : List α) :
    WithinSize size (chunksFrom size values []) := by
  induction hcount : values.length using Nat.strong_induction_on generalizing values with
  | _ count ih =>
      by_cases hlength : values.length < size
      · have hshort : ([] : List α).length + values.length < size := by simpa using hlength
        rw [chunksFrom_short hshort]
        cases values with
        | nil => exact ⟨by simp, by simp, by simp⟩
        | cons value values => exact ⟨by simp, by simpa using hlength.le, by simp⟩
      · rw [chunksFrom_long (by simpa using hsize) (by simpa using hlength)]
        apply withinSize_cons hsize
        · simpa using hlength
        · apply ih _ _ _ rfl
          rw [List.nil_append, List.length_drop]
          omega

/-! ## Statements -/

/-- The query string of a formatter that is given `values` and dropped. -/
def formatted (onConflict : OnConflict) (values : List ρ) : List (Insert ρ) :=
  (values.foldl (fun f value => f.fmtWith value) (⟨[], onConflict, []⟩ : MultiValueSqlFormatter ρ)).drop

/-- What the formatter has closed, and what it makes of its open statement and the values
still to come: a statement that is too long is closed by the next value. -/
theorem map_values_drop (values : List ρ) :
    ∀ f : MultiValueSqlFormatter ρ, f.queryValues.length ≤ sqlInsertValuesSize + 1 →
      (values.foldl (fun f value => f.fmtWith value) f).drop.map (·.values) =
        f.out.map (·.values) ++
          if f.queryValues.length = sqlInsertValuesSize + 1 then
            f.queryValues :: chunksFrom (sqlInsertValuesSize + 1) values []
          else chunksFrom (sqlInsertValuesSize + 1) values f.queryValues := by
  induction values with
  | nil =>
      intro f _
      by_cases hempty : f.queryValues = []
      · simp [MultiValueSqlFormatter.drop, hempty, chunksFrom]
      · have hpos : 0 < f.queryValues.length := List.length_pos_iff.2 hempty
        simp [MultiValueSqlFormatter.drop, MultiValueSqlFormatter.terminateQuery, hempty, hpos,
          chunksFrom]
  | cons value values ih =>
      intro f hlength
      by_cases hlong : f.queryValues.length > sqlInsertValuesSize
      · have hfull : f.queryValues.length = sqlInsertValuesSize + 1 := by omega
        have hnext : f.fmtWith value =
            ⟨f.out ++ [⟨f.queryValues, f.onConflict⟩], f.onConflict, [value]⟩ := by
          simp [MultiValueSqlFormatter.fmtWith, MultiValueSqlFormatter.maybeTerminateQuery, hlong,
            MultiValueSqlFormatter.terminateQuery]
        rw [List.foldl_cons, hnext, ih _ (by simp), if_pos hfull]
        simp [chunksFrom, sqlInsertValuesSize]
      · have hnext : f.fmtWith value = { f with queryValues := f.queryValues ++ [value] } := by
          simp [MultiValueSqlFormatter.fmtWith, MultiValueSqlFormatter.maybeTerminateQuery, hlong]
        have hopen : f.queryValues.length ≠ sqlInsertValuesSize + 1 := by omega
        rw [List.foldl_cons, hnext, ih _ (by simp; omega), if_neg hopen, chunksFrom]
        congr 1
        by_cases hlast : f.queryValues.length = sqlInsertValuesSize
        · simp [hlast]
        · have hmore : f.queryValues.length + 1 < sqlInsertValuesSize + 1 := by omega
          simp [hlast, hmore]

theorem map_values_formatted (onConflict : OnConflict) (values : List ρ) :
    (formatted onConflict values).map (·.values) =
      chunksFrom (sqlInsertValuesSize + 1) values [] := by
  rw [formatted, map_values_drop values _ (by simp)]
  simp

/-- The statements of any formatter are those the documentation promises, the chunks of
`fetch_outputs` of the same values, exactly where one statement is enough. -/
theorem statements_within_size_iff (onConflict : OnConflict) (values : List ρ) :
    (WithinSize sqlInsertValuesSize ((formatted onConflict values).map (·.values)) ∧
      (formatted onConflict values).map (·.values) = chunksFrom sqlInsertValuesSize values []) ↔
    values.length ≤ sqlInsertValuesSize := by
  rw [map_values_formatted]
  constructor
  · intro h
    by_contra hlong
    have hle := h.1.le (values.take (sqlInsertValuesSize + 1)) (by
      rw [chunksFrom_long (by simp) (by simpa using Nat.succ_le_of_lt (Nat.lt_of_not_le hlong))]
      simp)
    rw [List.length_take] at hle
    omega
  · intro hlength
    have heq : chunksFrom (sqlInsertValuesSize + 1) values [] =
        chunksFrom sqlInsertValuesSize values [] := by
      rw [chunksFrom_short (by simpa using Nat.lt_succ_of_le hlength)]
      obtain hshort | hfull := Nat.lt_or_eq_of_le hlength
      · rw [chunksFrom_short (by simpa using hshort)]
      · have hne : values ≠ [] := by
          intro hnil
          simp [hnil, sqlInsertValuesSize] at hfull
        rw [chunksFrom_long (by simp [sqlInsertValuesSize]) (by simpa using hfull.ge)]
        simp [← hfull, hne, chunksFrom]
    rw [heq]
    exact ⟨withinSize_chunksFrom (by simp [sqlInsertValuesSize]) values, rfl⟩

/-- One value too many for a statement, and it has them all. -/
theorem statement_above_size :
    ¬ ∀ values : List Unit,
      WithinSize sqlInsertValuesSize ((formatted .doNothing values).map (·.values)) := by
  intro h
  have hle := (h (List.replicate (sqlInsertValuesSize + 1) ())).le
    (List.replicate (sqlInsertValuesSize + 1) ()) (by
      rw [map_values_formatted, chunksFrom_long (by simp) (by simp)]
      simp)
  rw [List.length_replicate] at hle
  omega

end BitcoinIndexer.StatementSize
