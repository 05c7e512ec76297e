import Mathlib.Data.List.Basic
import Mathlib.Data.List.Induction
import Mathlib.Data.List.Nodup

/-!
# Rows under a unique key

A table is the list of its rows in insertion order.  `clash` says which pairs of
rows its unique keys forbid; inserting a forbidden row either fails the whole
statement or skips the row, as the conflict clause says.  `upsert` is the third
clause: the stored row is merged with the proposed one.
-/

namespace BitcoinIndexer.KeyedTable

variable {α : Type}

def insertRow (clash : α → α → Bool) (skip : Bool) (table : List α) (row : α) :
    Option (List α) :=
  if table.any (clash row) then (if skip then some table else none)
  else some (table ++ [row])

def insertRows (clash : α → α → Bool) (skip : Bool) : List α → List α → Option (List α)
  | table, [] => some table
  | table, row :: rows =>
      (insertRow clash skip table row).bind fun table => insertRows clash skip table rows

/-- No row clashes with an earlier one. -/
def Keyed (clash : α → α → Bool) (table : List α) : Prop :=
  table.Pairwise fun old new => clash new old = false

variable {clash : α → α → Bool} {skip : Bool} {table result rows : List α}

theorem keyed_append_singleton {row : α} :
    Keyed clash (table ++ [row]) ↔
      Keyed clash table ∧ ∀ old ∈ table, clash row old = false := by
  simp [Keyed, List.pairwise_append]

/-- Rows that clash neither with the table nor with each other are appended,
whatever the conflict clause. -/
theorem insertRows_of_keyed (hkeyed : Keyed clash (table ++ rows)) :
    insertRows clash skip table rows = some (table ++ rows) := by
  induction rows generalizing table with
  | nil => simp [insertRows]
  | cons row rows ih =>
      have hsplit : Keyed clash ((table ++ [row]) ++ rows) := by simpa using hkeyed
      have hrow : ∀ old ∈ table, clash row old = false :=
        (keyed_append_singleton.1 (List.pairwise_append.1 hsplit).1).2
      have hany : table.any (clash row) = false := by simpa using hrow
      simpa [insertRows, insertRow, hany] using ih hsplit

theorem insertRows_append (table left right : List α) :
    insertRows clash skip table (left ++ right) =
      (insertRows clash skip table left).bind fun table => insertRows clash skip table right := by
  induction left generalizing table with
  | nil => rfl
  | cons row left ih =>
      rw [List.cons_append, insertRows, insertRows, Option.bind_assoc]
      congr 1
      funext table
      exact ih table

theorem insertRow_keyed {row : α} (hkeyed : Keyed clash table)
    (hinsert : insertRow clash skip table row = some result) : Keyed clash result := by
  unfold insertRow at hinsert
  split_ifs at hinsert with hany hskip
  · exact Option.some.inj hinsert ▸ hkeyed
  · rw [← Option.some.inj hinsert, keyed_append_singleton]
    exact ⟨hkeyed, by simpa using hany⟩

/-- A unique key is never broken by an insert that succeeds. -/
theorem insertRows_keyed (hkeyed : Keyed clash table)
    (hinsert : insertRows clash skip table rows = some result) : Keyed clash result := by
  induction rows generalizing table with
  | nil => exact Option.some.inj hinsert ▸ hkeyed
  | cons row rows ih =>
      obtain ⟨middle, hrow, hrows⟩ := Option.bind_eq_some_iff.1 hinsert
      exact ih (insertRow_keyed hkeyed hrow) hrows

/-- Without a conflict clause a successful insert stores exactly its rows. -/
theorem insertRows_raise (hinsert : insertRows clash false table rows = some result) :
    result = table ++ rows := by
  induction rows generalizing table with
  | nil => simpa [insertRows] using (Option.some.inj hinsert).symm
  | cons row rows ih =>
      obtain ⟨middle, hrow, hrows⟩ := Option.bind_eq_some_iff.1 hinsert
      have hmiddle : middle = table ++ [row] := by
        by_cases hany : table.any (clash row) <;> simp [insertRow, hany] at hrow
        exact hrow.symm
      rw [ih hrows, hmiddle]
      simp

theorem insertRows_skip_isSome (table rows : List α) :
    (insertRows clash true table rows).isSome := by
  induction rows generalizing table with
  | nil => simp [insertRows]
  | cons row rows ih =>
      by_cases hany : table.any (clash row)
      · simpa [insertRows, insertRow, hany] using ih table
      · simpa [insertRows, insertRow, hany] using ih (table ++ [row])

/-- Skipping rows that all clash with stored ones changes nothing. -/
theorem insertRows_skip_all (h : ∀ row ∈ rows, ∃ old ∈ table, clash row old = true) :
    insertRows clash true table rows = some table := by
  induction rows with
  | nil => rfl
  | cons row rows ih =>
      have hany : table.any (clash row) = true := List.any_eq_true.2 (h row List.mem_cons_self)
      have hrest := ih fun other hmem => h other (List.mem_cons_of_mem row hmem)
      simp only [insertRows, insertRow, hany, if_true, Option.bind_some, hrest]

/-- Old rows stay, new rows come from the statement. -/
theorem mem_of_insertRows {row : α}
    (hinsert : insertRows clash skip table rows = some result) (hmem : row ∈ result) :
    row ∈ table ∨ row ∈ rows := by
  induction rows generalizing table with
  | nil => exact Or.inl (Option.some.inj hinsert ▸ hmem)
  | cons head rows ih =>
      obtain ⟨middle, hrow, hrows⟩ := Option.bind_eq_some_iff.1 hinsert
      rcases ih hrows with hmiddle | hrest
      · unfold insertRow at hrow
        split_ifs at hrow
        · exact Or.inl (Option.some.inj hrow ▸ hmiddle)
        · rw [← Option.some.inj hrow] at hmiddle
          rcases List.mem_append.1 hmiddle with htable | hhead
          · exact Or.inl htable
          · exact Or.inr (by simp [List.mem_singleton.1 hhead])
      · exact Or.inr (List.mem_cons_of_mem _ hrest)

theorem initial_of_insertRows (hinsert : insertRows clash skip table rows = some result) :
    table <+: result := by
  induction rows generalizing table with
  | nil => exact Option.some.inj hinsert ▸ List.prefix_rfl
  | cons head rows ih =>
      obtain ⟨middle, hrow, hrows⟩ := Option.bind_eq_some_iff.1 hinsert
      have hmiddle : table <+: middle := by
        unfold insertRow at hrow
        split_ifs at hrow
        · exact Option.some.inj hrow ▸ List.prefix_rfl
        · exact Option.some.inj hrow ▸ List.prefix_append _ _
      exact hmiddle.trans (ih hrows)

/-- Every proposed row is stored, or a stored row clashes with it. -/
theorem stored_of_insertRows {row : α}
    (hinsert : insertRows clash skip table rows = some result) (hmem : row ∈ rows) :
    row ∈ result ∨ ∃ old ∈ result, clash row old = true := by
  induction rows generalizing table with
  | nil => simp at hmem
  | cons head rows ih =>
      obtain ⟨middle, hrow, hrows⟩ := Option.bind_eq_some_iff.1 hinsert
      rcases List.mem_cons.1 hmem with rfl | hmem
      · have hsub := (initial_of_insertRows hrows).subset
        unfold insertRow at hrow
        split_ifs at hrow with hany hskip
        · obtain ⟨old, hold, hclash⟩ := List.any_eq_true.1 hany
          rw [← Option.some.inj hrow] at hsub
          exact Or.inr ⟨old, hsub hold, hclash⟩
        · rw [← Option.some.inj hrow] at hsub
          exact Or.inl (hsub (by simp))
      · exact ih hrows hmem

/-! ### Clashes of a key -/

section Keys

variable {κ π : Type} {key : α → κ}

theorem keyed_iff_nodup (hclash : ∀ new old, clash new old = true ↔ key new = key old) :
    Keyed clash table ↔ (table.map key).Nodup := by
  rw [Keyed, List.Nodup, List.pairwise_map]
  apply Iff.of_eq
  congr 1
  funext old new
  rw [Bool.eq_false_iff, ne_eq, hclash, ne_comm]

theorem keyed_of_nodup (hclash : ∀ new old, clash new old = true → key new = key old)
    (hnodup : (table.map key).Nodup) : Keyed clash table := by
  apply (List.pairwise_map.1 hnodup).imp
  intro old new hne
  exact Bool.eq_false_iff.2 fun h => hne (hclash new old h).symm

/-- A key that is unique stays so. -/
theorem nodup_insertRows (hclash : ∀ new old, clash new old = true ↔ key new = key old)
    (hnodup : (table.map key).Nodup) (hinsert : insertRows clash skip table rows = some result) :
    (result.map key).Nodup :=
  (keyed_iff_nodup hclash).1 (insertRows_keyed ((keyed_iff_nodup hclash).2 hnodup) hinsert)

/-- Skipping the rows whose key is stored never fails, and stores every key. -/
theorem exists_insertRows_skip (hclash : ∀ new old, clash new old = true ↔ key new = key old)
    (hnodup : (table.map key).Nodup) (rows : List α) :
    ∃ result, insertRows clash true table rows = some result ∧ table <+: result ∧
      (result.map key).Nodup ∧ rows.map key ⊆ result.map key := by
  obtain ⟨result, hresult⟩ := Option.isSome_iff_exists.1 (insertRows_skip_isSome table rows)
  refine ⟨result, hresult, initial_of_insertRows hresult, nodup_insertRows hclash hnodup hresult, ?_⟩
  intro value hvalue
  obtain ⟨row, hrow, rfl⟩ := List.mem_map.1 hvalue
  obtain hstored | ⟨old, hold, hsame⟩ := stored_of_insertRows hresult hrow
  · exact List.mem_map_of_mem hstored
  · exact List.mem_map.2 ⟨old, hold, ((hclash row old).1 hsame).symm⟩

/-- The keys afterwards are the stored ones and the new ones. -/
theorem mem_keys_insertRows_skip (hclash : ∀ new old, clash new old = true ↔ key new = key old)
    {rows : List α} (hinsert : insertRows clash true table rows = some result) {value : κ} :
    value ∈ result.map key ↔ value ∈ table.map key ∨ value ∈ rows.map key := by
  constructor
  · intro hvalue
    obtain ⟨row, hrow, rfl⟩ := List.mem_map.1 hvalue
    exact (mem_of_insertRows hinsert hrow).imp List.mem_map_of_mem List.mem_map_of_mem
  · rintro (hstored | hnew)
    · exact ((initial_of_insertRows hinsert).map key).subset hstored
    · obtain ⟨row, hrow, rfl⟩ := List.mem_map.1 hnew
      obtain hin | ⟨old, hold, hsame⟩ := stored_of_insertRows hinsert hrow
      · exact List.mem_map_of_mem hin
      · exact List.mem_map.2 ⟨old, hold, ((hclash row old).1 hsame).symm⟩

/-- They are so even where a clash says no more than that the keys are equal. -/
theorem mem_keys_insertRows (hclash : ∀ new old, clash new old = true → key new = key old)
    {rows : List α} (hinsert : insertRows clash skip table rows = some result) {value : κ} :
    value ∈ result.map key ↔ value ∈ table.map key ∨ value ∈ rows.map key := by
  constructor
  · intro hvalue
    obtain ⟨row, hrow, rfl⟩ := List.mem_map.1 hvalue
    exact (mem_of_insertRows hinsert hrow).imp List.mem_map_of_mem List.mem_map_of_mem
  · rintro (hstored | hnew)
    · exact ((initial_of_insertRows hinsert).map key).subset hstored
    · obtain ⟨row, hrow, rfl⟩ := List.mem_map.1 hnew
      obtain hin | ⟨old, hold, hsame⟩ := stored_of_insertRows hinsert hrow
      · exact List.mem_map_of_mem hin
      · exact List.mem_map.2 ⟨old, hold, (hclash row old hsame).symm⟩

/-- Rows under several owners, each named in the keys of its rows. -/
theorem nodup_of_owners {β : Type} {owners : List β} {rowsOf : β → List α} (name : β → π)
    (owner : κ → π) (howner : ∀ b ∈ owners, ∀ row ∈ rowsOf b, owner (key row) = name b)
    (hnames : (owners.map name).Nodup) (hrows : ∀ b ∈ owners, ((rowsOf b).map key).Nodup) :
    ((owners.flatMap rowsOf).map key).Nodup := by
  rw [List.map_flatMap, List.nodup_flatMap]
  refine ⟨hrows, (List.pairwise_map.1 hnames).imp_of_mem ?_⟩
  intro left right hleft hright hne value hvalueLeft hvalueRight
  obtain ⟨leftRow, hleftRow, rfl⟩ := List.mem_map.1 hvalueLeft
  obtain ⟨rightRow, hrightRow, heq⟩ := List.mem_map.1 hvalueRight
  apply hne
  calc
    name left = owner (key leftRow) := (howner left hleft leftRow hleftRow).symm
    _ = owner (key rightRow) := by rw [heq]
    _ = name right := howner right hright rightRow hrightRow

/-- Rows of owners the table does not know. -/
theorem nodup_append_of_owners (owner : κ → π) (known : Set π) (htable : (table.map key).Nodup)
    (hrows : (rows.map key).Nodup) (hold : ∀ row ∈ table, owner (key row) ∈ known)
    (hnew : ∀ row ∈ rows, owner (key row) ∉ known) : ((table ++ rows).map key).Nodup := by
  rw [List.map_append, List.nodup_append]
  refine ⟨htable, hrows, ?_⟩
  intro _ hleft _ hright heq
  obtain ⟨old, hmem, rfl⟩ := List.mem_map.1 hleft
  obtain ⟨new, hmem', rfl⟩ := List.mem_map.1 hright
  exact hnew new hmem' (heq ▸ hold old hmem)

end Keys

/-! ### The rows of one owner -/

section Owners

variable {π : Type} [DecidableEq π] {owner : α → π}

theorem filter_insertRow (howner : ∀ new old, clash new old = true → owner new = owner old)
    (o : π) {row : α} (hinsert : insertRow clash skip table row = some result) :
    if owner row = o then
      insertRow clash skip (table.filter (owner · = o)) row = some (result.filter (owner · = o))
    else result.filter (owner · = o) = table.filter (owner · = o) := by
  split_ifs with hrow
  · have hany : (table.filter (owner · = o)).any (clash row) = table.any (clash row) := by
      rw [List.any_filter]
      apply List.any_congr rfl
      intro old
      cases hclash : clash row old with
      | false => simp
      | true => simp [← howner row old hclash, hrow]
    unfold insertRow at hinsert ⊢
    rw [hany]
    split_ifs at hinsert ⊢
    · rw [Option.some.inj hinsert]
    · rw [← Option.some.inj hinsert]
      simp [hrow]
  · unfold insertRow at hinsert
    split_ifs at hinsert
    · rw [Option.some.inj hinsert]
    · rw [← Option.some.inj hinsert]
      simp [hrow]

/-- What becomes of the rows of an owner depends on them and on the rows inserted for it. -/
theorem filter_insertRows (howner : ∀ new old, clash new old = true → owner new = owner old)
    (o : π) (hinsert : insertRows clash skip table rows = some result) :
    insertRows clash skip (table.filter (owner · = o)) (rows.filter (owner · = o)) =
      some (result.filter (owner · = o)) := by
  induction rows generalizing table with
  | nil => rw [Option.some.inj hinsert]; rfl
  | cons row rows ih =>
      obtain ⟨middle, hrow, hrows⟩ := Option.bind_eq_some_iff.1 hinsert
      have hmiddle := filter_insertRow howner o hrow
      have hrest := ih hrows
      split_ifs at hmiddle with howned
      · simp only [List.filter_cons, howned, decide_true, if_true, insertRows, hmiddle,
          Option.bind_some, hrest]
      · simp only [List.filter_cons, howned, decide_false, Bool.false_eq_true, if_false]
        rwa [← hmiddle]

/-- The rows of an owner stay as they are where all that is inserted for it is stored. -/
theorem filter_insertRows_stored (owner : α → π)
    (howner : ∀ new old, clash new old = true → owner new = owner old) (o : π)
    (hstored : ∀ row ∈ rows, owner row = o → ∃ old ∈ table, clash row old = true)
    (hinsert : insertRows clash true table rows = some result) :
    result.filter (owner · = o) = table.filter (owner · = o) := by
  have hfilter := filter_insertRows howner o hinsert
  rw [insertRows_skip_all, Option.some.injEq] at hfilter
  · exact hfilter.symm
  · intro row hmem
    obtain ⟨hrow, hown⟩ := List.mem_filter.1 hmem
    rw [decide_eq_true_eq] at hown
    obtain ⟨old, hold, hclash⟩ := hstored row hrow hown
    refine ⟨old, List.mem_filter.2 ⟨hold, ?_⟩, hclash⟩
    rw [decide_eq_true_eq, ← howner row old hclash, hown]

end Owners

/-! ### The first row of a key -/

section First

variable {κ π : Type} [DecidableEq κ] {key : α → κ}

/-- The row stored under the key of `row`, or `row` where none is. -/
def firstOf (key : α → κ) (table : List α) (row : α) : α :=
  (table.find? fun old => key old = key row).getD row

theorem key_firstOf (row : α) : key (firstOf key table row) = key row := by
  unfold firstOf
  cases hfind : table.find? fun old => key old = key row with
  | none => rfl
  | some old => simpa using List.find?_some hfind

theorem firstOf_of_mem (hnodup : (table.map key).Nodup) {row old : α} (hmem : old ∈ table)
    (hkey : key old = key row) : firstOf key table row = old := by
  unfold firstOf
  cases hfind : table.find? fun old => key old = key row with
  | none => simpa [hkey] using List.find?_eq_none.1 hfind old hmem
  | some other =>
      have hother : key other = key row := by simpa using List.find?_some hfind
      exact List.inj_on_of_nodup_map hnodup (List.mem_of_find?_eq_some hfind) hmem
        (hother.trans hkey.symm)

theorem firstOf_of_not_mem {row : α} (hnot : key row ∉ table.map key) :
    firstOf key table row = row := by
  have hfind : (table.find? fun old => key old = key row) = none := by
    rw [List.find?_eq_none]
    intro old hmem hkey
    rw [decide_eq_true_eq] at hkey
    exact hnot (hkey ▸ List.mem_map_of_mem hmem)
  simp [firstOf, hfind]

theorem filter_eq_nil {value : κ} (hnot : value ∉ table.map key) :
    table.filter (key · = value) = [] := by
  rw [List.filter_eq_nil_iff]
  intro old hold hkey
  rw [decide_eq_true_eq] at hkey
  exact hnot (hkey ▸ List.mem_map_of_mem hold)

theorem filter_eq_singleton (hnodup : (table.map key).Nodup) {old : α} (hmem : old ∈ table) :
    table.filter (key · = key old) = [old] := by
  have hsub : table.filter (key · = key old) ⊆ [old] := by
    intro row hrow
    obtain ⟨hin, hkey⟩ := List.mem_filter.1 hrow
    rw [decide_eq_true_eq] at hkey
    exact List.mem_singleton.2 (List.inj_on_of_nodup_map hnodup hin hmem hkey)
  have hin : old ∈ table.filter (key · = key old) := List.mem_filter.2 ⟨hmem, by simp⟩
  rw [← List.perm_singleton, List.perm_ext_iff_of_nodup (hnodup.of_map.filter _) (by simp)]
  exact fun row => ⟨fun hrow => hsub hrow, fun hrow => List.mem_singleton.1 hrow ▸ hin⟩

/-- Under a key that is in neither of two tables the same row is stored. -/
theorem mem_of_insertRows_skip (hclash : ∀ new old, clash new old = true ↔ key new = key old)
    {bare fresh : List α} (hinsert : insertRows clash skip table rows = some result)
    (hfresh : insertRows clash skip bare rows = some fresh) {row : α}
    (htable : key row ∉ table.map key) (hbare : key row ∉ bare.map key) (hmem : row ∈ fresh) :
    row ∈ result := by
  have howner : ∀ new old, clash new old = true → key new = key old :=
    fun new old => (hclash new old).1
  have hleft := filter_insertRows howner (key row) hinsert
  have hright := filter_insertRows howner (key row) hfresh
  rw [filter_eq_nil htable] at hleft
  rw [filter_eq_nil hbare, hleft, Option.some.injEq] at hright
  have hin : row ∈ fresh.filter (key · = key row) := List.mem_filter.2 ⟨hmem, by simp⟩
  rw [← hright] at hin
  exact (List.mem_filter.1 hin).1

/-- Where an owner's rows in the table are among those inserted for it, it has the rows it would
have in a table without any, except that those of the table stay. -/
theorem perm_insertRows_skip [DecidableEq π]
    (hclash : ∀ new old, clash new old = true ↔ key new = key old) (owner : α → π)
    (howner : ∀ left right, key left = key right → owner left = owner right) (o : π)
    {bare fresh : List α} (hnodup : (table.map key).Nodup) (hbareNodup : (bare.map key).Nodup)
    (hbare : ∀ row ∈ bare, owner row ≠ o)
    (hsub : ∀ row ∈ table, owner row = o → key row ∈ rows.map key)
    (hinsert : insertRows clash true table rows = some result)
    (hfresh : insertRows clash true bare rows = some fresh) :
    (result.filter (owner · = o)).Perm ((fresh.filter (owner · = o)).map (firstOf key table)) := by
  have hresultNodup := nodup_insertRows hclash hnodup hinsert
  have hfreshNodup := nodup_insertRows hclash hbareNodup hfresh
  have hnotBare : ∀ {row : α}, owner row = o → key row ∉ bare.map key := by
    intro row hown hmem
    obtain ⟨old, hold, hkey⟩ := List.mem_map.1 hmem
    exact hbare old hold ((howner old row hkey).trans hown)
  rw [List.perm_ext_iff_of_nodup (hresultNodup.of_map.filter _)]
  · intro row
    rw [List.mem_filter, List.mem_map, decide_eq_true_eq]
    constructor
    · rintro ⟨hmem, hown⟩
      have hrows : key row ∈ rows.map key := by
        obtain hold | hnew := mem_of_insertRows hinsert hmem
        · exact hsub row hold hown
        · exact List.mem_map_of_mem hnew
      obtain ⟨new, hnew, hkey⟩ :=
        List.mem_map.1 ((mem_keys_insertRows_skip hclash hfresh).2 (.inr hrows))
      have hnewOwn : owner new = o := (howner new row hkey).trans hown
      refine ⟨new, List.mem_filter.2 ⟨hnew, by simp [hnewOwn]⟩, ?_⟩
      by_cases hstored : key new ∈ table.map key
      · obtain ⟨old, hold, holdKey⟩ := List.mem_map.1 hstored
        rw [firstOf_of_mem hnodup hold holdKey]
        exact List.inj_on_of_nodup_map hresultNodup ((initial_of_insertRows hinsert).subset hold)
          hmem (holdKey.trans hkey)
      · rw [firstOf_of_not_mem hstored]
        have hin := mem_of_insertRows_skip hclash hinsert hfresh hstored (hnotBare hnewOwn) hnew
        exact List.inj_on_of_nodup_map hresultNodup hin hmem hkey
    · rintro ⟨new, hnew, rfl⟩
      obtain ⟨hnew, hown⟩ := List.mem_filter.1 hnew
      rw [decide_eq_true_eq] at hown
      refine ⟨?_, (howner _ new (key_firstOf new)).trans hown⟩
      by_cases hstored : key new ∈ table.map key
      · obtain ⟨old, hold, hkey⟩ := List.mem_map.1 hstored
        rw [firstOf_of_mem hnodup hold hkey]
        exact (initial_of_insertRows hinsert).subset hold
      · rw [firstOf_of_not_mem hstored]
        exact mem_of_insertRows_skip hclash hinsert hfresh hstored (hnotBare hown) hnew
  · have hkeys : (fresh.filter (owner · = o)).map (key ∘ firstOf key table) =
        (fresh.filter (owner · = o)).map key :=
      List.map_congr_left fun row _ => key_firstOf row
    apply List.Nodup.of_map key
    rw [List.map_map, hkeys]
    exact hfreshNodup.sublist (List.filter_sublist.map key)

end First

section Upsert

variable (same : α → α → Bool) (merge : α → α → α)

/-- `ON CONFLICT .. DO UPDATE`: merge the proposed row into the stored one. -/
def upsertRow (table : List α) (row : α) : List α :=
  if table.any (same row) then
    table.map fun old => if same row old then merge row old else old
  else table ++ [row]

def upsertRows (table rows : List α) : List α :=
  rows.foldl (upsertRow same merge) table

variable {same merge}

/-- What holds of the stored and of the proposed rows and survives merging holds of
every row. -/
theorem forall_upsertRows {P : α → Prop} {table rows : List α}
    (htable : ∀ row ∈ table, P row) (hrows : ∀ row ∈ rows, P row)
    (hmerge : ∀ new old, P old → P (merge new old)) :
    ∀ row ∈ upsertRows same merge table rows, P row := by
  induction rows generalizing table with
  | nil => exact htable
  | cons new rows ih =>
      apply ih _ fun row hmem => hrows row (List.mem_cons_of_mem _ hmem)
      intro row hmem
      unfold upsertRow at hmem
      split at hmem
      · obtain ⟨old, hold, rfl⟩ := List.mem_map.1 hmem
        split
        · exact hmerge new old (htable old hold)
        · exact htable old hold
      · obtain hold | hnew := List.mem_append.1 hmem
        · exact htable row hold
        · rw [List.mem_singleton.1 hnew]
          exact hrows new (by simp)

/-! ### Upserts by a key -/

variable {κ : Type} {key : α → κ} {table rows : List α}

/-- The rows are matched by their keys, and merging keeps the key. -/
structure MergesBy (key : α → κ) (same : α → α → Bool) (merge : α → α → α) : Prop where
  same_iff : ∀ new old, same new old = true ↔ key new = key old
  key_merge : ∀ new old, key (merge new old) = key old

theorem upsertRows_concat (row : α) :
    upsertRows same merge table (rows ++ [row]) =
      upsertRow same merge (upsertRows same merge table rows) row := by
  simp [upsertRows]

theorem map_key_upsertRow [DecidableEq κ] (h : MergesBy key same merge) (row : α) :
    (upsertRow same merge table row).map key =
      if key row ∈ table.map key then table.map key else table.map key ++ [key row] := by
  by_cases hany : table.any (same row) = true
  · have hin : key row ∈ table.map key := by
      obtain ⟨old, hold, hsame⟩ := List.any_eq_true.1 hany
      exact List.mem_map.2 ⟨old, hold, ((h.same_iff row old).1 hsame).symm⟩
    rw [upsertRow, if_pos hany, if_pos hin, List.map_map]
    apply List.map_congr_left
    intro old _
    by_cases hsame : same row old = true
    · simp [hsame, h.key_merge]
    · simp [hsame]
  · have hout : key row ∉ table.map key := by
      intro hin
      obtain ⟨old, hold, hkey⟩ := List.mem_map.1 hin
      exact hany (List.any_eq_true.2 ⟨old, hold, (h.same_iff row old).2 hkey.symm⟩)
    rw [upsertRow, if_neg hany, if_neg hout, List.map_append]
    rfl

/-- Keys stay where they are, new ones are appended. -/
theorem initial_of_upsertRows [DecidableEq κ] (h : MergesBy key same merge) :
    table.map key <+: (upsertRows same merge table rows).map key := by
  induction rows using List.reverseRecOn with
  | nil => exact List.prefix_rfl
  | append_singleton rows row ih =>
      rw [upsertRows_concat, map_key_upsertRow h]
      by_cases hin : key row ∈ (upsertRows same merge table rows).map key
      · rwa [if_pos hin]
      · rw [if_neg hin]
        exact ih.trans (List.prefix_append _ _)

theorem mem_map_key_upsertRows [DecidableEq κ] (h : MergesBy key same merge) {value : κ} :
    value ∈ (upsertRows same merge table rows).map key ↔
      value ∈ table.map key ∨ value ∈ rows.map key := by
  induction rows using List.reverseRecOn with
  | nil => simp [upsertRows]
  | append_singleton rows row ih =>
      rw [upsertRows_concat, map_key_upsertRow h, List.map_append, List.mem_append, ← or_assoc, ← ih]
      by_cases hin : key row ∈ (upsertRows same merge table rows).map key
      · rw [if_pos hin]
        constructor
        · exact Or.inl
        · rintro (hvalue | hvalue)
          · exact hvalue
          · rw [List.map_singleton, List.mem_singleton] at hvalue
            exact hvalue ▸ hin
      · rw [if_neg hin, List.mem_append]
        rfl

theorem nodup_upsertRows [DecidableEq κ] (h : MergesBy key same merge)
    (hnodup : (table.map key).Nodup) :
    ((upsertRows same merge table rows).map key).Nodup := by
  induction rows using List.reverseRecOn with
  | nil => exact hnodup
  | append_singleton rows row ih =>
      rw [upsertRows_concat, map_key_upsertRow h]
      by_cases hin : key row ∈ (upsertRows same merge table rows).map key
      · rwa [if_pos hin]
      · rw [if_neg hin]
        apply List.nodup_append.2 ⟨ih, by simp, _⟩
        intro old hold new hnew heq
        rw [List.mem_singleton.1 hnew] at heq
        exact hin (heq ▸ hold)

/-- A row has been left alone, or it is what a proposed one made of it. -/
theorem mem_upsertRows (h : MergesBy key same merge) {row : α}
    (hmem : row ∈ upsertRows same merge table rows) :
    row ∈ table ∧ key row ∉ rows.map key ∨
      ∃ new ∈ rows, key new = key row ∧ (row = new ∨ ∃ old, row = merge new old) := by
  induction rows using List.reverseRecOn generalizing row with
  | nil => exact .inl ⟨hmem, by simp⟩
  | append_singleton rows new ih =>
      rw [upsertRows_concat] at hmem
      have hkept : key new ≠ key row → row ∈ upsertRows same merge table rows →
          row ∈ table ∧ key row ∉ (rows ++ [new]).map key ∨
            ∃ new' ∈ rows ++ [new], key new' = key row ∧
              (row = new' ∨ ∃ old, row = merge new' old) := by
        intro hne hrow
        obtain ⟨htable, hout⟩ | ⟨new', hnew', hfrom⟩ := ih hrow
        · exact .inl ⟨htable, by simpa using ⟨by simpa using hout, hne.symm⟩⟩
        · exact .inr ⟨new', List.mem_append_left _ hnew', hfrom⟩
      by_cases hany : (upsertRows same merge table rows).any (same new) = true
      · rw [upsertRow, if_pos hany] at hmem
        obtain ⟨old, hold, hrow⟩ := List.mem_map.1 hmem
        by_cases hsame : same new old = true
        · rw [if_pos hsame] at hrow
          have hkey : key new = key row := by
            rw [← hrow, h.key_merge]
            exact (h.same_iff new old).1 hsame
          exact .inr ⟨new, by simp, hkey, .inr ⟨old, hrow.symm⟩⟩
        · rw [if_neg hsame] at hrow
          subst hrow
          exact hkept (fun hkey => hsame ((h.same_iff new old).2 hkey)) hold
      · rw [upsertRow, if_neg hany] at hmem
        obtain hold | hnew := List.mem_append.1 hmem
        · apply hkept _ hold
          intro hkey
          exact hany (List.any_eq_true.2 ⟨row, hold, (h.same_iff new row).2 hkey⟩)
        · obtain rfl := List.mem_singleton.1 hnew
          exact .inr ⟨row, by simp, rfl, .inl rfl⟩

/-- What becomes of the row under a key depends on it and on the rows proposed under that key. -/
theorem filter_upsertRows [DecidableEq κ] (h : MergesBy key same merge) (value : κ) :
    (upsertRows same merge table rows).filter (key · = value) =
      upsertRows same merge (table.filter (key · = value)) (rows.filter (key · = value)) := by
  have hone : ∀ (table : List α) (row : α),
      (upsertRow same merge table row).filter (key · = value) =
        if key row = value then upsertRow same merge (table.filter (key · = value)) row
        else table.filter (key · = value) := by
    intro table row
    have hany : key row = value →
        (table.filter (key · = value)).any (same row) = table.any (same row) := by
      intro hrow
      rw [List.any_filter]
      apply List.any_congr rfl
      intro old
      cases hsame : same row old with
      | false => simp
      | true => simp [← (h.same_iff row old).1 hsame, hrow]
    have hmap : (table.map fun old => if same row old then merge row old else old).filter
          (key · = value) =
        (table.filter (key · = value)).map fun old => if same row old then merge row old else old := by
      rw [List.filter_map]
      congr 1
      apply List.filter_congr
      intro old _
      by_cases hsame : same row old = true
      · simp [hsame, h.key_merge]
      · simp [hsame]
    have hother : key row ≠ value → ((table.filter (key · = value)).map fun old =>
        if same row old then merge row old else old) = table.filter (key · = value) := by
      intro hrow
      refine (List.map_congr_left ?_).trans (List.map_id _)
      intro old hmem
      have hkey : key old = value := by simpa using (List.mem_filter.1 hmem).2
      have hsame : same row old = false := by
        rw [Bool.eq_false_iff, ne_eq, h.same_iff, hkey]
        exact hrow
      simp [hsame]
    unfold upsertRow
    split_ifs with hin hrow hrow
    all_goals simp_all
  induction rows generalizing table with
  | nil => rfl
  | cons row rows ih =>
      have hcons : ∀ table, upsertRows same merge table (row :: rows) =
          upsertRows same merge (upsertRow same merge table row) rows := fun _ => rfl
      rw [hcons, ih, hone]
      by_cases hrow : key row = value
      · simp [hrow, upsertRows]
      · simp [hrow]

/-- Of the rows merged into one row, only the last one matters. -/
theorem upsertRows_singleton (h : MergesBy key same merge)
    (hlast : ∀ new middle old, merge new (merge middle old) = merge new old) {old : α}
    (hrows : ∀ row ∈ rows, key row = key old) :
    upsertRows same merge [old] rows = [(rows.getLast?.map (merge · old)).getD old] := by
  induction rows using List.reverseRecOn with
  | nil => rfl
  | append_singleton rows row ih =>
      have hkey : key row = key old := hrows row (by simp)
      have hsame : ∀ middle, same row (merge middle old) = true := by
        intro middle
        rw [h.same_iff, h.key_merge, hkey]
      rw [upsertRows_concat, ih fun row hmem => hrows row (List.mem_append_left _ hmem)]
      cases hrest : rows.getLast? with
      | none => simp [upsertRow, (h.same_iff row old).2 hkey]
      | some middle => simp [upsertRow, hsame, hlast]

/-- A row that is stored under a key of `rows` is merged with the last one of them, where none
is, the first one of them is. -/
theorem exists_merged [DecidableEq κ] (h : MergesBy key same merge)
    (hlast : ∀ new middle old, merge new (merge middle old) = merge new old)
    (hself : ∀ row, merge row row = row) {value : κ} (hmem : value ∈ rows.map key) :
    ∃ first ∈ rows, ∃ last ∈ rows, key first = value ∧ key last = value ∧
      ∀ table, (table.map key).Nodup →
        (upsertRows same merge table rows).filter (key · = value) =
          [merge last (firstOf key table first)] := by
  have hkeys : ∀ row ∈ rows.filter (key · = value), row ∈ rows ∧ key row = value := by
    intro row hrow
    simpa using hrow
  have hne : rows.filter (key · = value) ≠ [] := by
    obtain ⟨row, hrow, rfl⟩ := List.mem_map.1 hmem
    exact List.ne_nil_of_mem (List.mem_filter.2 ⟨hrow, by simp⟩)
  obtain ⟨first, rest, hcons⟩ := List.exists_cons_of_ne_nil hne
  have hfirst := hkeys first (by simp [hcons])
  have hgetLast := hkeys _ (List.getLast_mem hne)
  refine ⟨first, hfirst.1, _, hgetLast.1, hfirst.2, hgetLast.2, fun table hnodup => ?_⟩
  rw [filter_upsertRows h]
  by_cases hstored : value ∈ table.map key
  · obtain ⟨old, hold, rfl⟩ := List.mem_map.1 hstored
    rw [filter_eq_singleton hnodup hold, firstOf_of_mem hnodup hold hfirst.2.symm,
      upsertRows_singleton h hlast fun row hrow => (hkeys row hrow).2,
      List.getLast?_eq_some_getLast hne]
    rfl
  · have hrest : ∀ row ∈ rest, key row = key first := fun row hrow =>
      (hkeys row (by simp [hcons, hrow])).2.trans hfirst.2.symm
    have hfold : upsertRows same merge [] (first :: rest) = upsertRows same merge [first] rest :=
      rfl
    rw [filter_eq_nil hstored, firstOf_of_not_mem (hfirst.2 ▸ hstored)]
    simp only [hcons, hfold, upsertRows_singleton h hlast hrest]
    cases rest using List.reverseRecOn with
    | nil => simp [hself]
    | append_singleton rest row => simp

end Upsert

end BitcoinIndexer.KeyedTable
