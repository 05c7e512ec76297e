import Mathlib.Data.List.AList

/-!
# Maps built by inserting

What is found in an association map after a list of entries has been inserted, where
entries under one key have one value.
-/

namespace BitcoinIndexer.InsertedMap

variable {α β γ : Type} [DecidableEq α]

/-- Insert `entries` one after the other. -/
def insertAll (key : γ → α) (value : γ → β) (entries : List γ) (m : AList fun _ : α => β) :
    AList fun _ : α => β :=
  entries.foldl (fun m entry => m.insert (key entry) (value entry)) m

theorem insertAll_append (key : γ → α) (value : γ → β) (left right : List γ)
    (m : AList fun _ : α => β) :
    insertAll key value (left ++ right) m =
      insertAll key value right (insertAll key value left m) :=
  List.foldl_append

/-- The keys inserted have their value, the others are as before. -/
theorem lookup_insertAll {key : γ → α} {value : γ → β} (valueOf : α → β) {entries : List γ}
    (hvalue : ∀ entry ∈ entries, value entry = valueOf (key entry))
    (m : AList fun _ : α => β) (point : α) :
    (insertAll key value entries m).lookup point =
      if point ∈ entries.map key then some (valueOf point) else m.lookup point := by
  induction entries generalizing m with
  | nil => simp [insertAll]
  | cons head entries ih =>
      have hrest : ∀ entry ∈ entries, value entry = valueOf (key entry) :=
        fun entry hmem => hvalue entry (List.mem_cons_of_mem _ hmem)
      have hhead : value head = valueOf (key head) := hvalue head (by simp)
      have hfold : insertAll key value (head :: entries) m =
          insertAll key value entries (m.insert (key head) (value head)) := rfl
      rw [hfold, ih hrest]
      by_cases hmem : point ∈ entries.map key
      · rw [if_pos hmem, if_pos (by simp [hmem])]
      · by_cases heq : point = key head
        · rw [if_neg hmem, if_pos (by simp [heq]), heq, AList.lookup_insert, hhead]
        · rw [if_neg hmem, if_neg (by simp [heq, hmem]), AList.lookup_insert_ne heq]

/-- What is found after inserting is an entry that has been inserted, or was there before. -/
theorem mem_of_lookup_insertAll {key : γ → α} {value : γ → β}
    {entries : List γ} {m : AList fun _ : α => β} {point : α} {found : β}
    (hlookup : (insertAll key value entries m).lookup point = some found) :
    (∃ entry ∈ entries, key entry = point ∧ value entry = found) ∨ m.lookup point = some found := by
  induction entries generalizing m with
  | nil => exact .inr hlookup
  | cons head entries ih =>
      obtain ⟨entry, hmem, hentry⟩ | hold := ih hlookup
      · exact .inl ⟨entry, List.mem_cons_of_mem _ hmem, hentry⟩
      · by_cases hpoint : point = key head
        · rw [hpoint, AList.lookup_insert, Option.some.injEq] at hold
          exact .inl ⟨head, by simp, hpoint.symm, hold⟩
        · rw [AList.lookup_insert_ne hpoint] at hold
          exact .inr hold

/-- A map has as many entries as a list of distinct keys has elements that names them. -/
theorem length_keys_eq {m : AList fun _ : α => β} {points : List α} (hnodup : points.Nodup)
    (hkeys : ∀ point, (m.lookup point).isSome ↔ point ∈ points) :
    m.keys.length = points.length := by
  apply List.Perm.length_eq
  rw [List.perm_ext_iff_of_nodup m.keys_nodup hnodup]
  intro point
  rw [← AList.mem_keys, ← AList.lookup_isSome]
  exact hkeys point

end BitcoinIndexer.InsertedMap
