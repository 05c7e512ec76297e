import Mathlib.Algebra.BigOperators.Group.List.Basic
import Mathlib.Algebra.GroupWithZero.Nat
import Mathlib.Data.List.Dedup
import Mathlib.Data.List.Perm.Basic

/-!
# Joins and groups of rows

Queries over tables given as lists of rows, of which only the bag counts.  A join is
a nested loop; an outer join keeps a row without partner, once.  Sums of groups are
compared through what each part of a query adds to each group: an outer join that adds
nothing for a partner may have any number of them.
-/

namespace BitcoinIndexer.Joins

variable {α β γ κ : Type}

/-! ## Joins -/

def join (on : α → β → Bool) (left : List α) (right : List β) : List (α × β) :=
  left.flatMap fun a => (right.filter (on a)).map fun b => (a, b)

/-- What an outer join puts beside a row. -/
def partners (on : α → β → Bool) (right : List β) (a : α) : List (Option β) :=
  if right.any (on a) then (right.filter (on a)).map some else [none]

def leftJoin (on : α → β → Bool) (left : List α) (right : List β) : List (α × Option β) :=
  left.flatMap fun a => (partners on right a).map fun b => (a, b)

variable {on : α → β → Bool} {left : List α} {right : List β}

theorem mem_join {row : α × β} :
    row ∈ join on left right ↔ row.1 ∈ left ∧ row.2 ∈ right ∧ on row.1 row.2 = true := by
  simp only [join, List.mem_flatMap, List.mem_map, List.mem_filter]
  constructor
  · rintro ⟨a, ha, b, ⟨hb, hon⟩, rfl⟩
    exact ⟨ha, hb, hon⟩
  · rintro ⟨ha, hb, hon⟩
    exact ⟨row.1, ha, row.2, ⟨hb, hon⟩, rfl⟩

/-- A join with exactly one partner for each row. -/
theorem map_fst_join (h : ∀ a ∈ left, ∃ b, right.filter (on a) = [b]) :
    (join on left right).map Prod.fst = left := by
  induction left with
  | nil => rfl
  | cons a left ih =>
      obtain ⟨b, hb⟩ := h a List.mem_cons_self
      have hrest := ih fun other hmem => h other (List.mem_cons_of_mem a hmem)
      rw [join] at hrest ⊢
      rw [List.flatMap_cons, List.map_append, hrest, hb]
      rfl

theorem some_mem_partners {a : α} {b : β} :
    some b ∈ partners on right a ↔ b ∈ right ∧ on a b = true := by
  unfold partners
  split
  · simp
  · rename_i hnone
    simp only [List.any_eq_true, not_exists, not_and] at hnone
    simpa using hnone b

/-- Every row has something beside it. -/
theorem partners_ne_nil (a : α) : partners on right a ≠ [] := by
  unfold partners
  split
  · rename_i hany
    simpa using hany
  · exact List.cons_ne_nil _ _

theorem mem_leftJoin {row : α × Option β} :
    row ∈ leftJoin on left right ↔ row.1 ∈ left ∧ row.2 ∈ partners on right row.1 := by
  simp only [leftJoin, List.mem_flatMap, List.mem_map]
  constructor
  · rintro ⟨a, ha, b, hb, rfl⟩
    exact ⟨ha, hb⟩
  · rintro ⟨ha, hb⟩
    exact ⟨row.1, ha, row.2, hb, rfl⟩

theorem flatMap_join (f : α × β → List γ) :
    (join on left right).flatMap f =
      left.flatMap fun a => (right.filter (on a)).flatMap fun b => f (a, b) := by
  rw [join, List.flatMap_assoc]
  apply List.flatMap_congr
  intro a _
  rw [List.flatMap_map]

theorem flatMap_leftJoin (f : α × Option β → List γ) :
    (leftJoin on left right).flatMap f =
      left.flatMap fun a => (partners on right a).flatMap fun b => f (a, b) := by
  rw [leftJoin, List.flatMap_assoc]
  apply List.flatMap_congr
  intro a _
  rw [List.flatMap_map]

section Map

variable {α' β' : Type} {f : α → α'} {g : β → β'}

theorem join_map_left {on : α' → β → Bool} :
    join on (left.map f) right = (join (fun a => on (f a)) left right).map (Prod.map f id) := by
  rw [join, join, List.flatMap_map, List.map_flatMap]
  apply List.flatMap_congr
  intro a _
  rw [List.map_map]
  rfl

theorem join_map_right {on : α → β' → Bool} :
    join on left (right.map g) = (join (fun a b => on a (g b)) left right).map (Prod.map id g) := by
  rw [join, join, List.map_flatMap]
  apply List.flatMap_congr
  intro a _
  rw [List.filter_map, List.map_map, List.map_map]
  rfl

theorem partners_map {on : α → β' → Bool} (a : α) :
    partners on (right.map g) a = (partners (fun a b => on a (g b)) right a).map (Option.map g) := by
  rw [partners, partners, List.any_map]
  change (if right.any (fun b => on a (g b)) = true then _ else _) = _
  split
  · rw [List.filter_map, List.map_map, List.map_map]
    rfl
  · rfl

theorem leftJoin_map {on : α' → β' → Bool} : leftJoin on (left.map f) (right.map g) =
    (leftJoin (fun a b => on (f a) (g b)) left right).map (Prod.map f (Option.map g)) := by
  rw [leftJoin, leftJoin, List.flatMap_map, List.map_flatMap]
  apply List.flatMap_congr
  intro a _
  rw [partners_map, List.map_map, List.map_map]
  rfl

end Map

@[simp]
theorem flatMap_nothing (rows : List α) : rows.flatMap (fun _ => ([] : List γ)) = [] :=
  List.flatMap_eq_nil_iff.2 fun _ _ => rfl

theorem flatMap_filter (p : α → Bool) (rows : List α) (f : α → List γ) :
    (rows.filter p).flatMap f = rows.flatMap fun row => if p row then f row else [] := by
  induction rows with
  | nil => rfl
  | cons row rows ih =>
      by_cases hp : p row = true
      · simp only [List.filter_cons, hp, if_true, List.flatMap_cons, ih]
      · simp only [List.filter_cons, hp, Bool.false_eq_true, if_false, List.flatMap_cons, ih,
          List.nil_append]

/-- `SELECT` and `WHERE` row by row. -/
theorem map_filter_eq_flatMap (p : α → Bool) (rows : List α) (f : α → γ) :
    (rows.filter p).map f = rows.flatMap fun row => if p row then [f row] else [] := by
  rw [← flatMap_filter p rows fun row => [f row], List.map_eq_flatMap]

/-! ## Groups -/

variable [DecidableEq κ]

def groupBy (key : α → κ) (rows : List α) : List (κ × List α) :=
  (rows.map key).dedup.map fun value => (value, rows.filter fun row => key row = value)

theorem mem_groupBy {key : α → κ} {rows : List α} {group : κ × List α} :
    group ∈ groupBy key rows ↔
      group.1 ∈ rows.map key ∧ group.2 = rows.filter fun row => key row = group.1 := by
  rw [groupBy, List.mem_map]
  constructor
  · rintro ⟨value, hvalue, rfl⟩
    exact ⟨List.mem_dedup.1 hvalue, rfl⟩
  · rintro ⟨hvalue, hrows⟩
    exact ⟨group.1, List.mem_dedup.2 hvalue, Prod.ext rfl hrows.symm⟩

/-- The groups that satisfy a condition on their rows. -/
def having (keep : List α → Bool) (groups : List (κ × List α)) : List (κ × List α) :=
  groups.filter fun group => keep group.2

theorem mem_map_fst_having {key : α → κ} {rows : List α} {keep : List α → Bool} {value : κ} :
    value ∈ (having keep (groupBy key rows)).map Prod.fst ↔
      value ∈ rows.map key ∧ keep (rows.filter fun row => key row = value) = true := by
  simp only [having, List.mem_map, List.mem_filter, mem_groupBy]
  constructor
  · rintro ⟨group, ⟨⟨hkey, hrows⟩, hkeep⟩, rfl⟩
    rw [hrows] at hkeep
    exact ⟨hkey, hkeep⟩
  · rintro ⟨hkey, hkeep⟩
    exact ⟨(value, _), ⟨⟨hkey, rfl⟩, hkeep⟩, rfl⟩

/-- Every group is there once. -/
theorem map_fst_groupBy (key : α → κ) (rows : List α) :
    (groupBy key rows).map Prod.fst = (rows.map key).dedup := by
  rw [groupBy, List.map_map]
  exact List.map_id _

theorem nodup_map_fst_having (keep : List α → Bool) (key : α → κ) (rows : List α) :
    ((having keep (groupBy key rows)).map Prod.fst).Nodup := by
  apply List.Nodup.sublist (List.Sublist.map Prod.fst List.filter_sublist)
  rw [map_fst_groupBy]
  exact List.nodup_dedup _

/-- The rows with one of several distinct keys, key by key. -/
theorem flatMap_filter_perm (key : α → κ) (rows : List α)
    {keys : List κ} (hnodup : keys.Nodup) {p : α → Bool}
    (hp : ∀ row ∈ rows, p row = true ↔ key row ∈ keys) :
    (keys.flatMap fun value => rows.filter fun row => key row = value).Perm (rows.filter p) := by
  induction keys generalizing p with
  | nil =>
      have hnone : rows.filter p = [] := List.filter_eq_nil_iff.2 fun row hmem => by
        simp [hp row hmem]
      rw [hnone]
      exact List.Perm.nil
  | cons value keys ih =>
      obtain ⟨hnot, hnodup⟩ := List.nodup_cons.1 hnodup
      have hhead : (rows.filter p).filter (fun row => key row = value) =
          rows.filter fun row => key row = value := by
        rw [List.filter_filter]
        apply List.filter_congr
        intro row hmem
        by_cases heq : key row = value
        · have hrow := (hp row hmem).2 (by simp [heq])
          simp [heq, hrow]
        · simp [heq]
      have htail := ih hnodup (p := fun row => !decide (key row = value) && p row) fun row hmem => by
        rw [Bool.and_eq_true, hp row hmem, List.mem_cons]
        by_cases heq : key row = value <;> simp [heq, hnot]
      have hsplit := List.filter_append_perm (fun row => key row = value) (rows.filter p)
      rw [hhead, List.filter_filter] at hsplit
      rw [List.flatMap_cons]
      exact (htail.append_left _).trans hsplit

/-- The sums of the second column, grouped by the first. -/
def sumBy (entries : List (κ × ℕ)) : List (κ × ℕ) :=
  (groupBy Prod.fst entries).map fun group => (group.1, (group.2.map Prod.snd).sum)

/-- What the entries add to one group. -/
def total (key : κ) (entries : List (κ × ℕ)) : ℕ :=
  ((entries.filter fun entry => entry.1 = key).map Prod.snd).sum

theorem sumBy_eq (entries : List (κ × ℕ)) :
    sumBy entries = (entries.map Prod.fst).dedup.map fun key => (key, total key entries) := by
  rw [sumBy, groupBy, List.map_map]
  rfl

theorem mem_sumBy {entries : List (κ × ℕ)} {row : κ × ℕ} :
    row ∈ sumBy entries ↔ row.1 ∈ entries.map Prod.fst ∧ row.2 = total row.1 entries := by
  rw [sumBy_eq, List.mem_map]
  constructor
  · rintro ⟨key, hkey, rfl⟩
    exact ⟨List.mem_dedup.1 hkey, rfl⟩
  · rintro ⟨hkey, htotal⟩
    exact ⟨row.1, List.mem_dedup.2 hkey, Prod.ext rfl htotal.symm⟩

theorem nodup_map_fst_sumBy (entries : List (κ × ℕ)) : ((sumBy entries).map Prod.fst).Nodup := by
  have hkeys : (sumBy entries).map Prod.fst = (entries.map Prod.fst).dedup := by
    rw [sumBy_eq, List.map_map]
    exact List.map_id _
  rw [hkeys]
  exact List.nodup_dedup _

theorem total_append (key : κ) (entries more : List (κ × ℕ)) :
    total key (entries ++ more) = total key entries + total key more := by
  simp [total]

theorem total_flatMap (key : κ) (rows : List α) (f : α → List (κ × ℕ)) :
    total key (rows.flatMap f) = (rows.map fun row => total key (f row)).sum := by
  induction rows with
  | nil => rfl
  | cons row rows ih => rw [List.flatMap_cons, total_append, ih, List.map_cons, List.sum_cons]

theorem total_singleton (key : κ) (entry : κ × ℕ) :
    total key [entry] = if entry.1 = key then entry.2 else 0 := by
  by_cases hkey : entry.1 = key <;> simp [total, hkey]

theorem total_nil (key : κ) : total key [] = 0 := rfl

/-! ## Entries with the same sums -/

/-- The same groups, and the same sum in each. -/
structure SameSums (left right : List (κ × ℕ)) : Prop where
  keys : ∀ key, key ∈ left.map Prod.fst ↔ key ∈ right.map Prod.fst
  totals : ∀ key, total key left = total key right

namespace SameSums

@[simp]
theorem refl (entries : List (κ × ℕ)) : SameSums entries entries :=
  ⟨fun _ => Iff.rfl, fun _ => rfl⟩

theorem trans {first second third : List (κ × ℕ)} (hfirst : SameSums first second)
    (hsecond : SameSums second third) : SameSums first third where
  keys := fun key => (hfirst.keys key).trans (hsecond.keys key)
  totals := fun key => (hfirst.totals key).trans (hsecond.totals key)

theorem symm {left right : List (κ × ℕ)} (h : SameSums left right) : SameSums right left where
  keys := fun key => (h.keys key).symm
  totals := fun key => (h.totals key).symm

theorem flatMap {rows : List α} {f g : α → List (κ × ℕ)}
    (h : ∀ row ∈ rows, SameSums (f row) (g row)) :
    SameSums (rows.flatMap f) (rows.flatMap g) where
  keys := by
    intro key
    simp only [List.map_flatMap, List.mem_flatMap]
    constructor
    · rintro ⟨row, hrow, hkey⟩
      exact ⟨row, hrow, ((h row hrow).keys key).1 hkey⟩
    · rintro ⟨row, hrow, hkey⟩
      exact ⟨row, hrow, ((h row hrow).keys key).2 hkey⟩
  totals := by
    intro key
    rw [total_flatMap, total_flatMap]
    congr 1
    apply List.map_congr_left
    intro row hrow
    exact (h row hrow).totals key

theorem sumBy_perm {left right : List (κ × ℕ)} (h : SameSums left right) :
    (sumBy left).Perm (sumBy right) := by
  have htotals : (fun key => (key, total key left)) = fun key => (key, total key right) := by
    funext key
    rw [h.totals key]
  rw [sumBy_eq, sumBy_eq, htotals]
  apply List.Perm.map
  rw [List.perm_ext_iff_of_nodup (List.nodup_dedup _) (List.nodup_dedup _)]
  intro key
  rw [List.mem_dedup, List.mem_dedup]
  exact h.keys key

/-- An outer join that adds a value for a row without partner and nothing for each
partner: how many there are does not matter. -/
theorem partners {on : α → β → Bool} {right : List β} {a : α} {key : κ} {value : ℕ}
    {f : Option β → κ × ℕ} (hnone : f none = (key, value)) (hsome : ∀ b, f (some b) = (key, 0)) :
    SameSums ((Joins.partners on right a).flatMap fun b => [f b])
      [(key, if right.any (on a) then 0 else value)] := by
  unfold Joins.partners
  by_cases hany : right.any (on a) = true
  · simp only [hany, if_true, List.flatMap_map, hsome]
    constructor
    · intro other
      obtain ⟨b, hb, hon⟩ := List.any_eq_true.1 hany
      simp only [List.map_flatMap, List.mem_flatMap, List.map_cons, List.map_nil,
        List.mem_singleton, List.mem_filter]
      constructor
      · rintro ⟨_, _, heq⟩
        exact heq
      · intro heq
        exact ⟨b, ⟨hb, hon⟩, heq⟩
    · intro other
      rw [total_flatMap, total_singleton]
      simp
  · simp only [hany, Bool.false_eq_true, if_false, List.flatMap_cons, List.flatMap_nil, hnone,
      List.append_nil]
    exact refl _

end SameSums

end BitcoinIndexer.Joins
