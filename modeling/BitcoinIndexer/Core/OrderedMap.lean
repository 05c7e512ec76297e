import Mathlib.Data.List.Sort
import Mathlib.Order.Basic

/-!
# Ordered maps

A finite map whose entries are kept in increasing key order, as `BTreeMap` keeps
them: the order is part of the value, so iteration, splitting and the first and
last key need no further argument.
-/

namespace BitcoinIndexer.OrderedMap

structure BTreeMap (κ α : Type) [LinearOrder κ] where
  entries : List (κ × α)
  sorted : entries.Pairwise fun left right => left.1 < right.1

namespace BTreeMap

variable {κ α : Type} [LinearOrder κ]

@[ext]
theorem ext {left right : BTreeMap κ α} (h : left.entries = right.entries) :
    left = right := by
  cases left
  cases right
  simpa using h

instance [DecidableEq α] : DecidableEq (BTreeMap κ α) := fun left right =>
  decidable_of_iff (left.entries = right.entries) ⟨ext, fun h => h ▸ rfl⟩

def empty : BTreeMap κ α := ⟨[], List.Pairwise.nil⟩

def isEmpty (m : BTreeMap κ α) : Bool := m.entries.isEmpty

def len (m : BTreeMap κ α) : ℕ := m.entries.length

def values (m : BTreeMap κ α) : List α := m.entries.map (·.2)

def keys (m : BTreeMap κ α) : List κ := m.entries.map (·.1)

def get (m : BTreeMap κ α) (key : κ) : Option α :=
  (m.entries.find? fun entry => entry.1 = key).map (·.2)

def firstKeyValue (m : BTreeMap κ α) : Option (κ × α) := m.entries.head?

def lastKeyValue (m : BTreeMap κ α) : Option (κ × α) := m.entries.getLast?

/-- The entries below `key`, as `split_off` leaves them in place. -/
def below (m : BTreeMap κ α) (key : κ) : BTreeMap κ α :=
  ⟨m.entries.filter fun entry => entry.1 < key, m.sorted.filter _⟩

/-- The entries from `key` on, as `split_off` returns them. -/
def splitOff (m : BTreeMap κ α) (key : κ) : BTreeMap κ α :=
  ⟨m.entries.filter fun entry => key ≤ entry.1, m.sorted.filter _⟩

def remove (m : BTreeMap κ α) (key : κ) : BTreeMap κ α :=
  ⟨m.entries.filter fun entry => entry.1 ≠ key, m.sorted.filter _⟩

def insert (m : BTreeMap κ α) (key : κ) (value : α) : BTreeMap κ α where
  entries := (m.entries.filter fun entry => entry.1 < key) ++
    (key, value) :: m.entries.filter fun entry => key < entry.1
  sorted := by
    rw [List.pairwise_append]
    refine ⟨m.sorted.filter _, ?_, ?_⟩
    · rw [List.pairwise_cons]
      exact ⟨fun entry hentry => by simpa using (List.mem_filter.1 hentry).2,
        m.sorted.filter _⟩
    · intro left hleft right hright
      have hbelow : left.1 < key := by simpa using (List.mem_filter.1 hleft).2
      rcases List.mem_cons.1 hright with rfl | hright
      · exact hbelow
      · exact hbelow.trans (by simpa using (List.mem_filter.1 hright).2)

@[simp]
theorem entries_empty : (empty : BTreeMap κ α).entries = [] := rfl

@[simp]
theorem values_empty : (empty : BTreeMap κ α).values = [] := rfl

@[simp]
theorem entries_below (m : BTreeMap κ α) (key : κ) :
    (m.below key).entries = m.entries.filter fun entry => entry.1 < key := rfl

@[simp]
theorem entries_splitOff (m : BTreeMap κ α) (key : κ) :
    (m.splitOff key).entries = m.entries.filter fun entry => key ≤ entry.1 := rfl

/-- Inserting above everything else is appending. -/
theorem entries_insert_below (m : BTreeMap κ α) (key : κ) (value : α) :
    ((m.below key).insert key value).entries =
      (m.entries.filter fun entry => entry.1 < key) ++ [(key, value)] := by
  have hkept : (m.entries.filter fun entry => entry.1 < key).filter
      (fun entry => decide (entry.1 < key)) =
        m.entries.filter fun entry => entry.1 < key :=
    List.filter_eq_self.2 fun entry hentry => (List.mem_filter.1 hentry).2
  have hnone : (m.entries.filter fun entry => entry.1 < key).filter
      (fun entry => decide (key < entry.1)) = [] :=
    List.filter_eq_nil_iff.2 fun entry hentry => by
      simpa using le_of_lt (by simpa using (List.mem_filter.1 hentry).2)
  simp only [insert, below, hkept, hnone]

theorem mem_entries_insert {m : BTreeMap κ α} {key : κ} {value : α} {entry : κ × α} :
    entry ∈ (m.insert key value).entries ↔
      entry = (key, value) ∨ entry ∈ m.entries ∧ entry.1 ≠ key := by
  simp only [insert, List.mem_append, List.mem_filter, List.mem_cons, decide_eq_true_eq]
  constructor
  · rintro (⟨hmem, hlt⟩ | rfl | ⟨hmem, hlt⟩)
    · exact Or.inr ⟨hmem, ne_of_lt hlt⟩
    · exact Or.inl rfl
    · exact Or.inr ⟨hmem, ne_of_gt hlt⟩
  · rintro (rfl | ⟨hmem, hne⟩)
    · exact Or.inr (Or.inl rfl)
    · rcases lt_or_gt_of_ne hne with hlt | hlt
      · exact Or.inl ⟨hmem, hlt⟩
      · exact Or.inr (Or.inr ⟨hmem, hlt⟩)

theorem mem_entries_remove {m : BTreeMap κ α} {key : κ} {entry : κ × α} :
    entry ∈ (m.remove key).entries ↔ entry ∈ m.entries ∧ entry.1 ≠ key := by
  simp [remove]

/-- A key has one value. -/
theorem eq_of_mem_entries {m : BTreeMap κ α} {key : κ} {left right : α}
    (hleft : (key, left) ∈ m.entries) (hright : (key, right) ∈ m.entries) :
    left = right := by
  obtain ⟨i, hi, hgeti⟩ := List.mem_iff_getElem.1 hleft
  obtain ⟨j, hj, hgetj⟩ := List.mem_iff_getElem.1 hright
  have hsorted := List.pairwise_iff_getElem.1 m.sorted
  rcases lt_trichotomy i j with hlt | rfl | hlt
  · have := hsorted i j hi hj hlt
    simp [hgeti, hgetj] at this
  · exact (Prod.mk.inj (hgeti.symm.trans hgetj)).2
  · have := hsorted j i hj hi hlt
    simp [hgeti, hgetj] at this

theorem get_eq_some_iff {m : BTreeMap κ α} {key : κ} {value : α} :
    m.get key = some value ↔ (key, value) ∈ m.entries := by
  unfold get
  constructor
  · intro h
    obtain ⟨entry, hfind, rfl⟩ := Option.map_eq_some_iff.1 h
    have hkey : entry.1 = key := by simpa using List.find?_some hfind
    have hmem := List.mem_of_find?_eq_some hfind
    rwa [← hkey]
  · intro hmem
    cases hfind : m.entries.find? fun entry => entry.1 = key with
    | none => simpa using List.find?_eq_none.1 hfind _ hmem
    | some entry =>
        have hkey : entry.1 = key := by simpa using List.find?_some hfind
        have hentry : (key, entry.2) ∈ m.entries :=
          hkey ▸ List.mem_of_find?_eq_some hfind
        simp [eq_of_mem_entries hentry hmem]

theorem get_eq_none_iff {m : BTreeMap κ α} {key : κ} :
    m.get key = none ↔ key ∉ m.keys := by
  rw [← Option.not_isSome_iff_eq_none, Option.isSome_iff_exists]
  simp [get_eq_some_iff, keys]

theorem get_insert_self (m : BTreeMap κ α) (key : κ) (value : α) :
    (m.insert key value).get key = some value :=
  get_eq_some_iff.2 (mem_entries_insert.2 (Or.inl rfl))

theorem get_insert_of_ne (m : BTreeMap κ α) {key other : κ} (value : α)
    (hne : other ≠ key) : (m.insert key value).get other = m.get other := by
  apply Option.ext
  intro found
  rw [get_eq_some_iff, get_eq_some_iff, mem_entries_insert]
  simp [hne]

theorem get_remove_of_ne (m : BTreeMap κ α) {key other : κ} (hne : other ≠ key) :
    (m.remove key).get other = m.get other := by
  apply Option.ext
  intro found
  rw [get_eq_some_iff, get_eq_some_iff, mem_entries_remove]
  simp [hne]

theorem mem_keys_iff {m : BTreeMap κ α} {key : κ} :
    key ∈ m.keys ↔ ∃ value, m.get key = some value := by
  simp [get_eq_some_iff, keys]

theorem keys_nodup (m : BTreeMap κ α) : m.keys.Nodup :=
  (List.pairwise_map.2 m.sorted).imp ne_of_lt

theorem keys_remove (m : BTreeMap κ α) (key : κ) :
    (m.remove key).keys = m.keys.filter (· ≠ key) := by
  simp only [keys, remove, List.filter_map]
  rfl

theorem keys_remove_perm {m : BTreeMap κ α} {key : κ} (hmem : key ∈ m.keys) :
    m.keys.Perm (key :: (m.remove key).keys) := by
  have herase : m.keys.erase key = m.keys.filter (· ≠ key) := by
    rw [m.keys_nodup.erase_eq_filter]
    apply List.filter_congr
    intro other _
    simp [bne, beq_eq_decide]
  rw [keys_remove, ← herase]
  exact List.perm_cons_erase hmem

theorem keys_insert_perm {m : BTreeMap κ α} {key : κ} (value : α) (hnot : key ∉ m.keys) :
    (m.insert key value).keys.Perm (key :: m.keys) := by
  have hne : ∀ entry ∈ m.entries, entry.1 ≠ key := by
    intro entry hmem heq
    exact hnot (heq ▸ List.mem_map_of_mem hmem)
  have habove : (m.entries.filter fun entry => key < entry.1) =
      m.entries.filter fun entry => !decide (entry.1 < key) := by
    apply List.filter_congr
    intro entry hmem
    rw [← decide_not, decide_eq_decide, not_lt]
    exact (lt_iff_le_and_ne.trans (and_iff_left (hne entry hmem).symm))
  have hsplit : ((m.entries.filter fun entry => entry.1 < key) ++
      m.entries.filter fun entry => key < entry.1).Perm m.entries := by
    rw [habove]
    exact List.filter_append_perm _ _
  have hperm : (m.insert key value).entries.Perm ((key, value) :: m.entries) :=
    List.perm_middle.trans (hsplit.cons _)
  exact hperm.map Prod.fst

theorem get_of_lastKeyValue {m : BTreeMap κ α} {entry : κ × α}
    (hlast : m.lastKeyValue = some entry) : m.get entry.1 = some entry.2 :=
  get_eq_some_iff.2 (List.mem_of_getLast? hlast)

end BTreeMap

end BitcoinIndexer.OrderedMap
