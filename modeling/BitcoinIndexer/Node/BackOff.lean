import BitcoinIndexer.Node.Generation

/-!
# How long a worker waits after an error

A worker multiplies its delay by the distance of its height from the least height in
progress.  The set it looks into is its own, so the distance is always zero: it is the
distance from the least height of the generation only for the worker that is lowest.
-/

namespace BitcoinIndexer.Node

open BitcoinIndexer.OrderedMap

variable {ι δ : Type}

/-- The heights in progress of all the workers started together. -/
def Prefetcher.registered (p : Prefetcher ι δ) : List ℕ :=
  p.threadJoins.flatMap fun w => w.inProgress.keys

section Own

variable {w : Worker ι δ} {height : ℕ}

theorem Worker.Orderly.inProgress (horderly : w.Orderly) (hpc : w.pc = .retry height) :
    w.inProgress = BTreeMap.empty.insert height () := by
  rw [Worker.Orderly, hpc] at horderly
  exact horderly

theorem Worker.Orderly.aheadMinimum (horderly : w.Orderly) (hpc : w.pc = .retry height) :
    w.aheadMinimum height = some 0 := by
  have hleast : w.getMinHeightInProgress = some height := by
    rw [Worker.getMinHeightInProgress, horderly.inProgress hpc]
    rfl
  simp [Worker.aheadMinimum, hleast]

theorem Worker.Orderly.mem_registered {p : Prefetcher ι δ} (horderly : w.Orderly)
    (hpc : w.pc = .retry height) (hmem : w ∈ p.threadJoins) : height ∈ p.registered := by
  apply List.mem_flatMap_of_mem hmem
  rw [horderly.inProgress hpc]
  exact List.mem_singleton_self height

end Own

/-- Nothing is left above the least of a list exactly if nothing in the list is below. -/
theorem sub_least_eq_zero_iff {heights : List ℕ} {height least : ℕ}
    (hleast : heights.min? = some least) :
    height - least = 0 ↔ ∀ other ∈ heights, height ≤ other := by
  obtain ⟨hin, hlow⟩ := List.min?_eq_some_iff.1 hleast
  rw [Nat.sub_eq_zero_iff_le]
  constructor
  · intro hle other hother
    exact hle.trans (hlow other hother)
  · intro hall
    exact hall least hin

/-- After an error a worker never panics over its set, and it always waits for nothing.
That is the distance from the least height registered in its generation, and only the
worker on that height retries at once, exactly if no worker has a lower height in
progress. -/
theorem waits_by_distance_iff_lowest [DecidableEq ι] (threadNum count : ℕ)
    (start : Option (WithHeightAndId ι Unit)) (events : List (Event ι δ)) (index height : ℕ)
    (w : Worker ι δ)
    (hget : ((State.new threadNum count start).run events).prefetcher.threadJoins[index]? =
      some w) (hpc : w.pc = .retry height) :
    let registered := ((State.new threadNum count start).run events).prefetcher.registered
    w.aheadMinimum height = some 0 ∧ ∃ least, registered.min? = some least ∧ least ≤ height ∧
      (w.aheadMinimum height = some (height - least) ↔
        ∀ other ∈ registered, height ≤ other) ∧
      ((w.aheadMinimum height = some 0 → height = least) ↔
        ∀ other ∈ registered, height ≤ other) := by
  intro registered
  obtain ⟨hnew, hphase⟩ := Watched.inv_new (δ := δ) threadNum count start
  obtain ⟨hpartition, -⟩ := Watched.inv_run events hnew hphase
  rw [Watched.state_run] at hpartition
  have hmem := List.mem_of_getElem? hget
  have horderly : w.Orderly := hpartition.orderly w hmem
  have hahead := horderly.aheadMinimum hpc
  have hregistered : height ∈ registered := horderly.mem_registered hpc hmem
  obtain ⟨least, hleast⟩ := Option.isSome_iff_exists.1 (List.isSome_min?_of_mem hregistered)
  have hle : least ≤ height := (List.min?_eq_some_iff.1 hleast).2 height hregistered
  have hlowest := @sub_least_eq_zero_iff registered height least hleast
  refine ⟨hahead, least, hleast, hle, ?_, ?_⟩
  · rw [hahead, Option.some.injEq, eq_comm]
    exact hlowest
  · rw [hahead, ← hlowest]
    constructor
    · intro honly
      rw [honly rfl, Nat.sub_self]
    · intro hzero _
      omega

/-- A node that gives no answer. -/
def unreachable : Rpc ℕ Unit where
  getBlockCount := .error .failed
  getBlockIdByHeight := fun _ => .error .failed
  getBlockById := fun _ => .error .failed

/-- Two workers claim a height each, and the request of the one at `index` fails. -/
def oneFails (index : ℕ) : List (Event ℕ Unit) :=
  [.worker 0 unreachable, .worker 0 unreachable, .worker 1 unreachable, .worker 1 unreachable,
    .worker index unreachable, .worker index unreachable]

theorem lowest_waits_by_distance :
    let registered := ((State.new 2 9 none).run (oneFails 0)).prefetcher.registered
    let w : Worker ℕ Unit := ⟨BTreeMap.empty.insert 0 (), .retry 0⟩
    registered = [0, 1] ∧ w.aheadMinimum 0 = some 0 ∧
      ∃ least, registered.min? = some least ∧ least ≤ 0 ∧
        (w.aheadMinimum 0 = some (0 - least) ↔ ∀ other ∈ registered, 0 ≤ other) ∧
        ((w.aheadMinimum 0 = some 0 → 0 = least) ↔ ∀ other ∈ registered, 0 ≤ other) :=
  ⟨by decide +kernel,
    waits_by_distance_iff_lowest 2 9 none (oneFails 0) 0 0 _ (by decide +kernel) rfl⟩

/-- The worker at height 1 retries at once, although height 0 is still in progress. -/
theorem higher_retries_at_once :
    let p := ((State.new 2 9 none).run (oneFails 1)).prefetcher
    ∃ w, p.threadJoins[1]? = some w ∧ w.pc = .retry 1 ∧ p.registered.min? = some 0 ∧
      w.aheadMinimum 1 = some 0 ∧ w.aheadMinimum 1 ≠ some (1 - 0) :=
  ⟨⟨BTreeMap.empty.insert 1 (), .retry 1⟩, by decide +kernel⟩

end BitcoinIndexer.Node
