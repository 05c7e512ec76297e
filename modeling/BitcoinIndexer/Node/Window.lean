import Mathlib.Order.Bounds.Basic
import BitcoinIndexer.Node.Generation

/-!
# The window of recorded hashes

The recorded heights are the last thousand up to the greatest one ever recorded, or all
of them from the start block on.  A reorg is followed back to the lowest of them; a
block that is waited for there has no recorded predecessor, and the iterator panics.
-/

namespace BitcoinIndexer.Node

open BitcoinIndexer.ReferenceChain
open BitcoinIndexer.OrderedMap

variable {ι δ : Type}

/-- The lowest height kept when `greatest` has been recorded. -/
def lowestKept (first greatest : ℕ) : ℕ := max first (greatest - (Prefetcher.windowSize - 1))

/-- The start block and what has been yielded. -/
def recordedHeights (start : Option (WithHeightAndId ι Unit))
    (yielded : List (RpcBlockWithPrevId ι δ)) : List ℕ :=
  (start.map (·.height)).toList ++ yielded.map (·.block.height)

/-- The iterator is going back by one height. -/
def Phase.resets : Phase ι → Bool
  | .finish .reorg | .drain .reorg => true
  | _ => false

/-- The height the iterator waits for, or will wait for after the reset under way. -/
def State.awaited (s : State ι δ) : ℕ :=
  if s.phase.resets then s.prefetcher.curHeight - 1 else s.prefetcher.curHeight

structure Window (first greatest : ℕ) (p : Prefetcher ι δ) : Prop where
  keys : ∀ height, height ∈ p.prevHashes.keys ↔
    lowestKept first greatest ≤ height ∧ height ≤ greatest
  above : first ≤ greatest
  low : lowestKept first greatest ≤ p.curHeight
  high : p.curHeight ≤ greatest + 1

namespace Prefetcher

variable {p : Prefetcher ι δ} {item : RpcBlockWithPrevId ι δ} {first greatest : ℕ}

theorem mem_keys_recorded (hheight : item.block.height = p.curHeight) {height : ℕ} :
    height ∈ (p.recorded item).keys ↔
      (height = p.curHeight ∨ height ∈ p.prevHashes.keys) ∧
        (windowSize ≤ p.curHeight → height ≠ p.curHeight - windowSize) := by
  have hinsert : height ∈ (p.prevHashes.insert item.block.height item.block.id).keys ↔
      height = p.curHeight ∨ height ∈ p.prevHashes.keys := by
    rw [BTreeMap.mem_keys_iff, BTreeMap.mem_keys_iff, ← hheight]
    by_cases heq : height = item.block.height
    · simp [heq, BTreeMap.get_insert_self]
    · simp [heq, BTreeMap.get_insert_of_ne _ _ heq]
  unfold recorded
  split
  · rename_i hfull
    rw [BTreeMap.keys_remove, List.mem_filter, hinsert]
    simp [hfull]
  · rename_i hshort
    rw [hinsert]
    simp [hshort]

theorem get_recorded_self (hheight : item.block.height = p.curHeight) :
    (p.recorded item).get item.block.height = some item.block.id := by
  unfold recorded
  split
  · rename_i hfull
    have hne : item.block.height ≠ p.curHeight - windowSize := by
      simp only [windowSize] at hfull ⊢
      omega
    rw [BTreeMap.get_remove_of_ne _ hne, BTreeMap.get_insert_self]
  · exact BTreeMap.get_insert_self _ _ _

end Prefetcher

theorem len_le_of_keys {m : BTreeMap ℕ ι} {low high : ℕ}
    (hkeys : ∀ height ∈ m.keys, low ≤ height ∧ height ≤ high) : m.len ≤ high + 1 - low := by
  have hsubset : m.keys ⊆ List.range' low (high + 1 - low) := by
    intro height hmem
    rw [List.mem_range'_1]
    have := hkeys height hmem
    omega
  have hlength := (m.keys_nodup.subperm hsubset).length_le
  rw [List.length_range', BTreeMap.keys, List.length_map] at hlength
  exact hlength

theorem lowestKept_spans (first greatest : ℕ) :
    greatest + 1 - lowestKept first greatest ≤ Prefetcher.windowSize := by
  simp only [lowestKept, Prefetcher.windowSize]
  omega

theorem lowestKept_max_le {first greatest height : ℕ} (hlow : lowestKept first greatest ≤ height) :
    lowestKept first (max greatest height) ≤ height + 1 := by
  unfold lowestKept at hlow ⊢
  generalize Prefetcher.windowSize - 1 = span at hlow ⊢
  omega

namespace Window

open Prefetcher

variable {p : Prefetcher ι δ} {item : RpcBlockWithPrevId ι δ} {first greatest : ℕ}

/-- Recording keeps the window, whether the height is a new greatest one or not. -/
theorem keys_recorded (h : Window first greatest p) (hheight : item.block.height = p.curHeight)
    (height : ℕ) : height ∈ (p.recorded item).keys ↔
      lowestKept first (max greatest p.curHeight) ≤ height ∧
        height ≤ max greatest p.curHeight := by
  have habove := h.above
  have hlow := h.low
  have hhigh := h.high
  rw [mem_keys_recorded hheight, h.keys]
  simp only [lowestKept, windowSize] at hlow ⊢
  omega

theorem len_le (h : Window first greatest p) : p.prevHashes.len ≤ windowSize :=
  (len_le_of_keys fun height hmem => (h.keys height).1 hmem).trans (lowestKept_spans _ _)

theorem len_recorded_le (h : Window first greatest p) (hheight : item.block.height = p.curHeight) :
    (p.recorded item).len ≤ windowSize :=
  (len_le_of_keys fun height hmem => (keys_recorded h hheight height).1 hmem).trans
    (lowestKept_spans _ _)

/-- Only at the lowest key, above height 0, is there no hash to compare with. -/
theorem get_eq_none_iff (h : Window first greatest p) (hpos : 0 < p.curHeight) :
    p.prevHashes.get (p.curHeight - 1) = none ↔ p.curHeight = lowestKept first greatest := by
  have hlow := h.low
  have hhigh := h.high
  rw [BTreeMap.get_eq_none_iff, h.keys]
  omega

variable [DecidableEq ι]

/-- `track_reorgs` panics exactly at the lowest key above height 0. -/
theorem trackReorgs_panics_iff (h : Window first greatest p)
    (hheight : item.block.height = p.curHeight) :
    (∃ panic, p.trackReorgs item = .error panic) ↔
      p.curHeight = lowestKept first greatest ∧ 0 < lowestKept first greatest := by
  constructor
  · intro ⟨panic, herror⟩
    obtain ⟨-, hlen⟩ | ⟨hpos, hnone, -⟩ := trackReorgs_eq_error hheight herror
    · exact absurd (len_recorded_le h hheight) (by omega)
    · have hcur := (h.get_eq_none_iff hpos).1 hnone
      exact ⟨hcur, hcur ▸ hpos⟩
  · intro ⟨hcur, hpos⟩
    have hnone := (h.get_eq_none_iff (hcur ▸ hpos)).2 hcur
    cases htrack : p.trackReorgs item with
    | error panic => exact ⟨panic, rfl⟩
    | ok result =>
        obtain ⟨-, ⟨-, hprev, -⟩ | ⟨-, -, -, stored, hstored, -⟩⟩ := trackReorgs_eq_ok htrack
        · rw [hprev (hcur ▸ hpos)] at hnone
          cases hnone
        · rw [hstored] at hnone
          cases hnone

end Window

/-! ## Along a run -/

/-- Nothing recorded yet, or the window up to the greatest recorded height; a reset is
not under way at its lowest height. -/
structure Windowed (start : Option (WithHeightAndId ι Unit)) (s : State ι δ) : Prop where
  window : (start = none ∧ s.yielded = [] ∧ s.prefetcher.prevHashes.entries = [] ∧
      s.prefetcher.curHeight = 0) ∨
    ∃ greatest, IsGreatest {height | height ∈ recordedHeights start s.yielded} greatest ∧
      Window (startHeight start) greatest s.prefetcher
  reset : s.phase.resets = true → 0 < s.prefetcher.curHeight ∧
    s.prefetcher.prevHashes.get (s.prefetcher.curHeight - 1) ≠ none

/-- The iterator has not panicked over the size of the window or below height 0. -/
def Phase.bounded : Phase ι → Prop
  | .panicked .atLeastOneElement | .panicked .windowExceeded | .panicked .resetAtZero => False
  | _ => True

namespace Windowed

variable {start : Option (WithHeightAndId ι Unit)} {s : State ι δ}

/-- A step that records nothing and leaves the height alone. -/
theorem quiet (h : Windowed start s) {after : State ι δ} (hyielded : after.yielded = s.yielded)
    (hprev : after.prefetcher.prevHashes = s.prefetcher.prevHashes)
    (hcur : after.prefetcher.curHeight = s.prefetcher.curHeight)
    (hreset : after.phase.resets = true → s.phase.resets = true) : Windowed start after where
  window := by
    rw [hyielded, hprev, hcur]
    refine h.window.imp id fun ⟨greatest, hgreatest, hwindow⟩ => ⟨greatest, hgreatest, ?_⟩
    exact ⟨hprev ▸ hwindow.keys, hwindow.above, hcur ▸ hwindow.low, hcur ▸ hwindow.high⟩
  reset := by
    rw [hprev, hcur]
    exact fun hresets => h.reset (hreset hresets)

/-- Workers are started at a height of the window. -/
theorem restarted (h : Windowed start s) {threadNum height : ℕ}
    (hheight : height = s.prefetcher.curHeight ∨
      s.phase.resets = true ∧ height = s.prefetcher.curHeight - 1) :
    Windowed start
      { s with prefetcher := s.prefetcher.restarted threadNum height, phase := .lookUp } where
  window := by
    obtain ⟨hnone, hyielded, hempty, hzero⟩ | ⟨greatest, hgreatest, hwindow⟩ := h.window
    · refine .inl ⟨hnone, hyielded, hempty, ?_⟩
      obtain rfl | ⟨-, rfl⟩ := hheight
      · exact hzero
      · exact (congrArg (· - 1) hzero)
    · refine .inr ⟨greatest, hgreatest, hwindow.keys, hwindow.above, ?_, ?_⟩
      · obtain rfl | ⟨hresets, rfl⟩ := hheight
        · exact hwindow.low
        · -- the height below is recorded
          obtain ⟨hpos, hsome⟩ := h.reset hresets
          rw [ne_eq, hwindow.get_eq_none_iff hpos] at hsome
          have hlow := hwindow.low
          simp only [Prefetcher.restarted]
          omega
      · have hhigh := hwindow.high
        obtain rfl | ⟨-, rfl⟩ := hheight <;> simp only [Prefetcher.restarted] <;> omega
  reset := by simp [Phase.resets]

theorem isGreatest_append {heights : List ℕ} {greatest height : ℕ}
    (h : IsGreatest {other | other ∈ heights} greatest) :
    IsGreatest {other | other ∈ heights ++ [height]} (max greatest height) := by
  constructor
  · simp only [Set.mem_ofPred_eq, List.mem_append, List.mem_singleton]
    obtain hle | hle := le_total greatest height
    · rw [max_eq_right hle]
      exact .inr rfl
    · rw [max_eq_left hle]
      exact .inl h.1
  · intro other hmem
    obtain hold | rfl := (List.mem_append.1 hmem).imp id List.mem_singleton.1
    · exact le_max_of_le_left (h.2 hold)
    · exact le_max_right _ _

variable [DecidableEq ι]

theorem yield (h : Windowed start s) {item : RpcBlockWithPrevId ι δ} {p q : Prefetcher ι δ}
    (hoffered : Offered s item p) (htrack : p.trackReorgs item = .ok (false, q)) :
    Windowed start ⟨{ q with curHeight := q.curHeight + 1 }, .idle, s.yielded ++ [item]⟩ where
  window := by
    obtain ⟨hcur, hprevHashes⟩ := hoffered.frame
    obtain ⟨hheight, ⟨-, -, rfl, -⟩ | ⟨hfalse, -⟩⟩ := Prefetcher.trackReorgs_eq_ok htrack
    case inr => cases hfalse
    have hheights : recordedHeights start (s.yielded ++ [item]) =
        recordedHeights start s.yielded ++ [p.curHeight] := by
      simp [recordedHeights, hheight]
    rw [hheights]
    obtain ⟨rfl, hyielded, hempty, hzero⟩ | ⟨greatest, hgreatest, hwindow⟩ := h.window
    · rw [hzero] at hcur
      refine .inr ⟨0, ?_, fun height => ?_, le_rfl, ?_, ?_⟩
      · rw [hyielded, hcur]
        exact ⟨by simp [recordedHeights], fun other hmem => by
          simp only [recordedHeights, Option.map_none, Option.toList_none, List.map_nil,
            List.append_nil, List.nil_append, Set.mem_ofPred_eq, List.mem_singleton] at hmem
          exact hmem.le⟩
      · have hkeys : p.prevHashes.keys = [] := by simp [BTreeMap.keys, hprevHashes, hempty]
        have hshort : ¬ Prefetcher.windowSize ≤ p.curHeight := by simp [hcur, Prefetcher.windowSize]
        change height ∈ (p.recorded item).keys ↔ _
        rw [Prefetcher.mem_keys_recorded hheight, hkeys, hcur]
        simp [lowestKept, startHeight, Prefetcher.windowSize]
      · simp [lowestKept, startHeight]
      · simp [hcur]
    · have hwindow' : Window (startHeight start) greatest p :=
        ⟨hprevHashes ▸ hwindow.keys, hwindow.above, hcur ▸ hwindow.low, hcur ▸ hwindow.high⟩
      have habove := hwindow'.above
      have hlow := hwindow'.low
      refine .inr ⟨max greatest p.curHeight, isGreatest_append hgreatest,
        hwindow'.keys_recorded hheight, by omega, ?_, ?_⟩
      · exact lowestKept_max_le hlow
      · exact Nat.succ_le_succ (le_max_right _ _)
  reset := by simp [Phase.resets]

theorem step (h : Windowed start s) (event : Event ι δ) : Windowed start (s.step event) := by
  have htransition := transition_step s event
  generalize s.step event = after at htransition
  cases htransition with
  | stay => exact h
  | worked index rpc w w' p hget hstep =>
      obtain ⟨nextHeight, rx, rfl⟩ := (Prefetcher.worked_of_workerStep hstep).frame
      exact h.quiet rfl rfl rfl id
  | yielded item p q hoffered htrack => exact h.yield hoffered htrack
  | reorgFound item p hoffered htrack =>
      obtain ⟨hcur, hprevHashes⟩ := hoffered.frame
      have hquiet : Windowed start { s with prefetcher := p, phase := .lookUp } :=
        h.quiet rfl hprevHashes hcur (by simp [Phase.resets])
      obtain ⟨-, ⟨hfalse, -⟩ | ⟨-, -, hpos, stored, hstored, -⟩⟩ :=
        Prefetcher.trackReorgs_eq_ok htrack
      · cases hfalse
      · exact ⟨hquiet.window, fun _ => ⟨hpos, by simp [hstored]⟩⟩
  | trackPanicked item p panic hoffered htrack =>
      obtain ⟨hcur, hprevHashes⟩ := hoffered.frame
      exact h.quiet rfl hprevHashes hcur (by simp [Phase.resets])
  | finished stop hphase =>
      refine h.quiet rfl rfl rfl ?_
      rw [hphase]
      cases stop <;> simp [Phase.resets]
  | fastSyncRestart => exact h.restarted (.inl rfl)
  | reorgRestart channel hphase => exact h.restarted (.inr ⟨by rw [hphase]; rfl, rfl⟩)
  | putAside channel item items hphase | drained stop channel item items hphase =>
      exact h.quiet rfl rfl rfl id
  | fastSyncEnded | asked | notBuffered | belowCurrent | disconnected | rxMissing | resetAtZero =>
      exact h.quiet rfl rfl rfl (by simp [Phase.resets])

/-- A panic of `track_reorgs` is one at the lowest key. -/
theorem trackReorgs_eq_error (h : Windowed start s) {item : RpcBlockWithPrevId ι δ}
    {p : Prefetcher ι δ} {panic : Panic ι} (hoffered : Offered s item p)
    (hheight : item.block.height = s.prefetcher.curHeight)
    (herror : p.trackReorgs item = .error panic) :
    panic = .reorgBeyondAcceptableDepth p.curHeight ∨
      ∃ maxPrevHash, panic = .noPrevHash p.curHeight item.block.id maxPrevHash := by
  obtain ⟨hcur, hprevHashes⟩ := hoffered.frame
  rw [← hcur] at hheight
  obtain ⟨-, -, hempty, hzero⟩ | ⟨greatest, -, hwindow⟩ := h.window
  · have hkeys : ∀ height ∈ (p.recorded item).keys, 0 ≤ height ∧ height ≤ 0 := by
      intro height hmem
      rw [Prefetcher.mem_keys_recorded hheight, BTreeMap.keys, hprevHashes, hempty, hcur,
        hzero] at hmem
      simpa using hmem.1
    have hlen := len_le_of_keys hkeys
    obtain ⟨-, hexceeded⟩ | ⟨hpos, -⟩ := Prefetcher.trackReorgs_eq_error hheight herror
    · simp only [Prefetcher.windowSize] at hexceeded
      omega
    · omega
  · have hwindow' : Window (startHeight start) greatest p :=
      ⟨hprevHashes ▸ hwindow.keys, hwindow.above, hcur ▸ hwindow.low, hcur ▸ hwindow.high⟩
    obtain ⟨-, hlen⟩ | ⟨-, -, ⟨-, hentries⟩ | hdeep⟩ :=
      Prefetcher.trackReorgs_eq_error hheight herror
    · exact absurd (hwindow'.len_recorded_le hheight) (by omega)
    · have hmem := (hwindow'.keys greatest).2 ⟨?_, le_rfl⟩
      · simp [BTreeMap.keys, hentries] at hmem
      · have habove := hwindow.above
        unfold lowestKept
        omega
    · exact hdeep

theorem bounded_step (h : Windowed start s) (hbounded : s.phase.bounded)
    (hheights : ∀ item p, Offered s item p → item.block.height = s.prefetcher.curHeight)
    (hrx : s.prefetcher.rx ≠ none) (event : Event ι δ) : (s.step event).phase.bounded := by
  have htransition := transition_step s event
  generalize s.step event = after at htransition
  cases htransition with
  | stay | worked | putAside | drained => exact hbounded
  | rxMissing panic hnone => exact absurd hnone hrx
  | resetAtZero channel hphase hrx hitems hzero =>
      obtain ⟨hpos, -⟩ := h.reset (by rw [hphase]; rfl)
      omega
  | trackPanicked item p panic hoffered htrack =>
      obtain rfl | ⟨_, rfl⟩ := h.trackReorgs_eq_error hoffered (hheights item p hoffered) htrack
        <;> exact trivial
  | _ => exact trivial

end Windowed

/-! ## Reorgs -/

/-- Whatever is offered to the iterator while `events` happen has the property. -/
def OffersOnly [DecidableEq ι] (s : State ι δ) (events : List (Event ι δ))
    (offered : RpcBlockWithPrevId ι δ → Prop) : Prop :=
  ∀ count item p, Offered (s.run (events.take count)) item p → offered item

section Reorgs

variable {s : State ι δ}

theorem Offered.awaited {item : RpcBlockWithPrevId ι δ} {p : Prefetcher ι δ}
    (h : Offered s item p) : s.awaited = s.prefetcher.curHeight := by
  cases h with
  | buffered item hphase => simp [State.awaited, hphase, Phase.resets]
  | received channel item items hphase => simp [State.awaited, hphase, Phase.resets]

/-- What a step does to the height awaited and the recorded hashes. -/
theorem awaited_step [DecidableEq ι] (hrx : s.prefetcher.rx ≠ none) (event : Event ι δ) :
    ((s.step event).awaited = s.awaited ∧
        (s.step event).prefetcher.prevHashes = s.prefetcher.prevHashes ∧
        (s.step event).yielded = s.yielded) ∨
      (∃ item p, Offered s item p ∧ p.trackReorgs item = .ok (true, p) ∧
        (s.step event).awaited = s.prefetcher.curHeight - 1 ∧
        (s.step event).prefetcher.prevHashes = s.prefetcher.prevHashes ∧
        (s.step event).yielded = s.yielded) ∨
      ∃ item p q, Offered s item p ∧ p.trackReorgs item = .ok (false, q) ∧
        (s.step event).awaited = s.prefetcher.curHeight + 1 ∧
        (s.step event).prefetcher.prevHashes = p.recorded item := by
  have htransition := transition_step s event
  generalize s.step event = after at htransition
  cases htransition with
  | yielded item p q hoffered htrack =>
      obtain ⟨hcur, -⟩ := hoffered.frame
      obtain ⟨-, ⟨-, -, rfl, -⟩ | ⟨hfalse, -⟩⟩ := Prefetcher.trackReorgs_eq_ok htrack
      · exact .inr (.inr ⟨item, p, _, hoffered, htrack, by simp [State.awaited, Phase.resets, hcur],
          rfl⟩)
      · cases hfalse
  | reorgFound item p hoffered htrack =>
      obtain ⟨hcur, hprevHashes⟩ := hoffered.frame
      exact .inr (.inl ⟨item, p, hoffered, htrack, by simp [State.awaited, Phase.resets, hcur],
        hprevHashes, rfl⟩)
  | trackPanicked item p panic hoffered htrack =>
      obtain ⟨hcur, hprevHashes⟩ := hoffered.frame
      refine .inl ⟨?_, hprevHashes, rfl⟩
      rw [hoffered.awaited, ← hcur]
      rfl
  | worked index rpc w w' p hget hstep =>
      obtain ⟨nextHeight, rx, rfl⟩ := (Prefetcher.worked_of_workerStep hstep).frame
      exact .inl ⟨rfl, rfl, rfl⟩
  | finished stop hphase | drained stop channel item items hphase =>
      refine .inl ⟨?_, rfl, rfl⟩
      cases stop <;> simp [State.awaited, Phase.resets, hphase]
  | resetAtZero channel hphase hrx hitems hzero =>
      exact .inl ⟨by simp [State.awaited, Phase.resets, hphase, hzero], rfl, rfl⟩
  | reorgRestart channel hphase | fastSyncRestart channel hphase =>
      exact .inl ⟨by simp [State.awaited, Phase.resets, hphase, Prefetcher.restarted], rfl, rfl⟩
  | rxMissing panic hnone => exact absurd hnone hrx
  | fastSyncEnded hphase | asked hphase | notBuffered hphase
  | belowCurrent channel item items hphase | disconnected channel hphase =>
      exact .inl ⟨by simp [State.awaited, Phase.resets, hphase], rfl, rfl⟩
  | _ => exact .inl ⟨rfl, rfl, rfl⟩

/-- What holds in every state: the heights are accounted for and the window is kept. -/
structure Sound (start : Option (WithHeightAndId ι Unit)) (s : State ι δ) : Prop where
  windowed : Windowed start s
  partition : ∃ g, Partition g s

variable {start : Option (WithHeightAndId ι Unit)}

namespace Sound

theorem rx (h : Sound start s) : s.prefetcher.rx ≠ none := by
  obtain ⟨g, hpartition⟩ := h.partition
  exact hpartition.rx

theorem offered_height (h : Sound start s) {item : RpcBlockWithPrevId ι δ} {p : Prefetcher ι δ}
    (hoffered : Offered s item p) : item.block.height = s.prefetcher.curHeight := by
  obtain ⟨g, hpartition⟩ := h.partition
  exact hpartition.offered_height hoffered

variable [DecidableEq ι]

theorem step (h : Sound start s) (event : Event ι δ) : Sound start (s.step event) where
  windowed := h.windowed.step event
  partition := by
    obtain ⟨g, hpartition⟩ := h.partition
    exact ⟨_, Watched.inv_step ⟨s, g⟩ event hpartition⟩

theorem run (h : Sound start s) (events : List (Event ι δ)) : Sound start (s.run events) := by
  induction events generalizing s with
  | nil => exact h
  | cons event events ih => exact ih (h.step event)

end Sound

variable {blocks : List (RpcBlockWithPrevId ι δ)}

/-- The window belongs to the greatest recorded height. -/
theorem Sound.window (h : Sound start s) {greatest : ℕ}
    (hgreatest : IsGreatest {height | height ∈ recordedHeights start s.yielded} greatest) :
    Window (startHeight start) greatest s.prefetcher := by
  obtain ⟨rfl, hyielded, -⟩ | ⟨other, hother, hwindow⟩ := h.windowed.window
  · have hmem := hgreatest.1
    simp [recordedHeights, hyielded] at hmem
  · rwa [hgreatest.unique hother]

theorem awaited_le : s.awaited ≤ s.prefetcher.curHeight := by
  unfold State.awaited
  split <;> omega

/-- The chain of the node and the recorded hashes have a block in common below the height
awaited. -/
def Meets (blocks : List (RpcBlockWithPrevId ι δ)) (s : State ι δ) : Prop :=
  ∃ fork item, blocks[fork]? = some item ∧ fork < s.awaited ∧
    s.prefetcher.prevHashes.get fork = some item.block.id

/-- And none in common. -/
def Misses (blocks : List (RpcBlockWithPrevId ι δ)) (s : State ι δ) : Prop :=
  ∀ fork item, blocks[fork]? = some item → fork < s.awaited →
    s.prefetcher.prevHashes.get fork ≠ some item.block.id

/-- The last block the consumer's chain has in common with the node's, below `awaited`. -/
structure LastCommon (chain : List ι) (blocks : List (RpcBlockWithPrevId ι δ))
    (awaited fork : ℕ) : Prop where
  below : fork < awaited
  common : chain[fork]? = (idents blocks)[fork]?
  last : ∀ height, fork < height → height < awaited → chain[height]? ≠ (idents blocks)[height]?

variable {chain : List ι}

/-- What is recorded below the height awaited is on the consumer's chain. -/
theorem Inv.recorded_common (hinv : Inv start chain s) {greatest height : ℕ}
    (hwindow : Window (startHeight start) greatest s.prefetcher)
    (hlowest : lowestKept (startHeight start) greatest ≤ height) (hlt : height < s.awaited) :
    ∃ id, s.prefetcher.prevHashes.get height = some id ∧
      (consumed chain s.yielded)[height]? = some id := by
  have hcur := hlt.trans_le awaited_le
  have hhigh := hwindow.high
  have hkey := (hwindow.keys height).2 ⟨hlowest, by omega⟩
  obtain ⟨id, hget⟩ := BTreeMap.mem_keys_iff.1 hkey
  exact ⟨id, hget, hinv.recorded height id hcur hget⟩

theorem LastCommon.meets {fork greatest : ℕ}
    (h : LastCommon (consumed chain s.yielded) blocks s.awaited fork) (hinv : Inv start chain s) (hwindow : Window (startHeight start) greatest s.prefetcher)
    (hlowest : lowestKept (startHeight start) greatest ≤ fork) :
    ∃ item, blocks[fork]? = some item ∧
      s.prefetcher.prevHashes.get fork = some item.block.id := by
  obtain ⟨id, hget, hconsumed⟩ := hinv.recorded_common hwindow hlowest h.below
  have hcommon := h.common
  rw [hconsumed, idents, List.getElem?_map] at hcommon
  obtain ⟨item, hitem, hid⟩ := Option.map_eq_some_iff.1 hcommon.symm
  exact ⟨item, hitem, by rw [hget, ← hid]; rfl⟩

theorem LastCommon.misses {fork greatest : ℕ}
    (h : LastCommon (consumed chain s.yielded) blocks s.awaited fork) (hinv : Inv start chain s) (hwindow : Window (startHeight start) greatest s.prefetcher)
    (hlowest : fork < lowestKept (startHeight start) greatest) : Misses blocks s := by
  intro height item hitem hlt hget
  have hkey := (hwindow.keys height).1 (BTreeMap.mem_keys_iff.2 ⟨_, hget⟩)
  apply h.last height (by omega) hlt
  rw [hinv.recorded height _ (hlt.trans_le awaited_le) hget, idents, List.getElem?_map, hitem]
  rfl

/-- The parent of a block of the node's chain is the block below it. -/
theorem prev_of_extends (hextends : Extends [] blocks) {item below : RpcBlockWithPrevId ι δ}
    (hmem : item ∈ blocks) {height : ℕ} (hheight : item.block.height = height + 1)
    (hbelow : blocks[height]? = some below) : item.prevBlockId = below.block.id := by
  have hprev := hextends.prev_eq hmem (by rw [link_height]; omega)
  simp only [link_height, List.nil_append, idents, List.getElem?_map, hheight,
    Nat.add_sub_cancel, hbelow, Option.map_some, Option.some.injEq] at hprev
  exact hprev.symm

/-- A block of the node's chain is found at its height. -/
theorem getElem?_of_extends (hextends : Extends [] blocks) {item : RpcBlockWithPrevId ι δ}
    (hmem : item ∈ blocks) : blocks[item.block.height]? = some item := by
  obtain ⟨index, hindex⟩ := List.mem_iff_getElem?.1 hmem
  have hat := hextends.height_eq hindex
  rw [link_height, List.length_nil, Nat.zero_add] at hat
  rw [hat]
  exact hindex

variable [DecidableEq ι]

/-- `id` is recorded below the height awaited, or has left the window there. -/
def Rooted (fork : ℕ) (id : ι) (s : State ι δ) : Prop :=
  fork < s.awaited ∧ ∀ other, s.prefetcher.prevHashes.get fork = some other → other = id

/-- A recorded block is not left while its children are offered above it. -/
theorem Rooted.step {fork : ℕ} {id : ι} (h : Rooted fork id s) (hsound : Sound start s)
    (hoffers : ∀ item p, Offered s item p → item.block.height = fork + 1 → item.prevBlockId = id)
    (event : Event ι δ) : Rooted fork id (s.step event) := by
  obtain ⟨hbelow, hid⟩ := h
  obtain ⟨hawaited, hprev, -⟩ | ⟨item, p, hoffered, htrack, hawaited, hprev, -⟩ |
    ⟨item, p, q, hoffered, htrack, hawaited, hprev⟩ := awaited_step hsound.rx event
  · rw [Rooted, hawaited, hprev]
    exact ⟨hbelow, hid⟩
  · rw [Rooted, hawaited, hprev]
    obtain ⟨hcur, hprevHashes⟩ := hoffered.frame
    rw [hoffered.awaited] at hbelow
    obtain ⟨hheight, ⟨hfalse, -⟩ | ⟨-, -, -, stored, hstored, hne⟩⟩ :=
      Prefetcher.trackReorgs_eq_ok htrack
    · cases hfalse
    · -- the block right above would be a child
      have habove : fork ≠ s.prefetcher.curHeight - 1 := by
        intro heq
        rw [hcur, hprevHashes, ← heq] at hstored
        exact hne ((hid stored hstored).trans (hoffers item p hoffered (by omega)).symm)
      exact ⟨by omega, hid⟩
  · rw [Rooted, hawaited, hprev]
    obtain ⟨hcur, hprevHashes⟩ := hoffered.frame
    rw [hoffered.awaited] at hbelow
    have hheight := (Prefetcher.trackReorgs_eq_ok htrack).1
    refine ⟨by omega, fun other hget => ?_⟩
    obtain ⟨heq, -⟩ | ⟨-, hold⟩ := get_recorded hget
    · omega
    · exact hid other (hprevHashes ▸ hold)

/-- Where the block is still recorded, `track_reorgs` does not panic. -/
theorem Rooted.tracks {fork : ℕ} {id : ι} (h : Rooted fork id s) (hsound : Sound start s)
    (hget : s.prefetcher.prevHashes.get fork ≠ none) {item : RpcBlockWithPrevId ι δ}
    {p : Prefetcher ι δ} (hoffered : Offered s item p) : ∃ result, p.trackReorgs item = .ok result := by
  cases htrack : p.trackReorgs item with
  | ok result => exact ⟨result, rfl⟩
  | error panic =>
      obtain ⟨hcur, hprevHashes⟩ := hoffered.frame
      have hheight := (hsound.offered_height hoffered).trans hcur.symm
      have hbelow := h.1
      rw [hoffered.awaited] at hbelow
      obtain ⟨-, -, hempty, -⟩ | ⟨greatest, -, hwindow⟩ := hsound.windowed.window
      · exact absurd (BTreeMap.get_eq_none_iff.2 (by simp [BTreeMap.keys, hempty])) hget
      · have hwindow' : Window (startHeight start) greatest p :=
          ⟨hprevHashes ▸ hwindow.keys, hwindow.above, hcur ▸ hwindow.low, hcur ▸ hwindow.high⟩
        have hlowest := ((hwindow'.trackReorgs_panics_iff hheight).1 ⟨panic, htrack⟩).1
        rw [ne_eq, BTreeMap.get_eq_none_iff, not_not, hwindow.keys] at hget
        omega

theorem Meets.step (hextends : Extends [] blocks) (h : Meets blocks s) (hsound : Sound start s)
    (hoffers : ∀ item p, Offered s item p → item ∈ blocks) (event : Event ι δ) :
    Meets blocks (s.step event) := by
  obtain ⟨fork, below, hbelow, hlt, hget⟩ := h
  have hrooted : Rooted fork below.block.id s := by
    refine ⟨hlt, fun other hother => ?_⟩
    rw [hget] at hother
    exact (Option.some.inj hother).symm
  have hkept := hrooted.step hsound (fun item p hoffered hheight =>
    prev_of_extends hextends (hoffers item p hoffered) hheight hbelow) event
  obtain ⟨-, hprev, -⟩ | ⟨-, -, -, -, -, hprev, -⟩ |
    ⟨item, p, q, hoffered, htrack, hawaited, hprev⟩ := awaited_step hsound.rx event
  · exact ⟨fork, below, hbelow, hkept.1, hprev ▸ hget⟩
  · exact ⟨fork, below, hbelow, hkept.1, hprev ▸ hget⟩
  · -- the block just yielded is one of the chain
    have hheight := (Prefetcher.trackReorgs_eq_ok htrack).1
    have hcur := hoffered.frame.1
    refine ⟨item.block.height, item, getElem?_of_extends hextends (hoffers item p hoffered),
      by omega, ?_⟩
    rw [hprev]
    exact Prefetcher.get_recorded_self hheight

theorem Meets.tracks (h : Meets blocks s) (hsound : Sound start s) {item : RpcBlockWithPrevId ι δ}
    {p : Prefetcher ι δ} (hoffered : Offered s item p) :
    ∃ result, p.trackReorgs item = .ok result := by
  obtain ⟨fork, below, -, hlt, hget⟩ := h
  have hrooted : Rooted fork below.block.id s := by
    refine ⟨hlt, fun other hother => ?_⟩
    rw [hget] at hother
    exact (Option.some.inj hother).symm
  exact hrooted.tracks hsound (by simp [hget]) hoffered

/-- Without a common block, no block of the chain is yielded above height 0. -/
theorem Misses.not_yielded (h : Misses blocks s) (hextends : Extends [] blocks)
    (hpos : 0 < s.prefetcher.curHeight) {item : RpcBlockWithPrevId ι δ} {p q : Prefetcher ι δ}
    (hmem : item ∈ blocks) (hoffered : Offered s item p) :
    p.trackReorgs item ≠ .ok (false, q) := by
  intro htrack
  obtain ⟨hcur, hprevHashes⟩ := hoffered.frame
  obtain ⟨hheight, ⟨-, hprev, -⟩ | ⟨hfalse, -⟩⟩ := Prefetcher.trackReorgs_eq_ok htrack
  · have hget := getElem?_of_extends hextends hmem
    obtain ⟨hlt, -⟩ := List.getElem?_eq_some_iff.1 hget
    have hbelow := List.getElem?_eq_getElem (l := blocks)
      (show s.prefetcher.curHeight - 1 < blocks.length by omega)
    have hparent := prev_of_extends hextends hmem (by omega) hbelow
    rw [hcur, hprevHashes, hparent] at hprev
    exact h _ _ hbelow (by rw [hoffered.awaited]; omega) (hprev hpos)
  · cases hfalse

theorem Misses.step (hextends : Extends [] blocks) (h : Misses blocks s) (hsound : Sound start s)
    {greatest : ℕ} (hwindow : Window (startHeight start) greatest s.prefetcher)
    (hlowest : 0 < lowestKept (startHeight start) greatest)
    (hoffers : ∀ item p, Offered s item p → item ∈ blocks) (event : Event ι δ) :
    Misses blocks (s.step event) ∧ (s.step event).yielded = s.yielded := by
  obtain ⟨hawaited, hprev, hyielded⟩ | ⟨item, p, hoffered, -, hawaited, hprev, hyielded⟩ |
    ⟨item, p, q, hoffered, htrack, -⟩ := awaited_step hsound.rx event
  · rw [Misses, hawaited, hprev]
    exact ⟨h, hyielded⟩
  · rw [Misses, hawaited, hprev]
    refine ⟨fun fork below hbelow hlt => h fork below hbelow ?_, hyielded⟩
    rw [hoffered.awaited]
    omega
  · exact absurd htrack (h.not_yielded hextends (hlowest.trans_le hwindow.low)
      (hoffers item p hoffered) hoffered)

theorem OffersOnly.tail {event : Event ι δ} {events : List (Event ι δ)}
    {offered : RpcBlockWithPrevId ι δ → Prop} (h : OffersOnly s (event :: events) offered) :
    (∀ item p, Offered s item p → offered item) ∧ OffersOnly (s.step event) events offered :=
  ⟨fun item p => h 0 item p, fun count item p => h (count + 1) item p⟩

theorem Rooted.run {fork : ℕ} {id : ι} (h : Rooted fork id s) (hsound : Sound start s)
    (events : List (Event ι δ))
    (hoffers : OffersOnly s events fun item => item.block.height = fork + 1 → item.prevBlockId = id) :
    Rooted fork id (s.run events) := by
  induction events generalizing s with
  | nil => exact h
  | cons event events ih =>
      obtain ⟨hnow, hlater⟩ := hoffers.tail
      exact ih (h.step hsound hnow event) (hsound.step event) hlater

theorem Meets.run (hextends : Extends [] blocks) (h : Meets blocks s) (hsound : Sound start s)
    (events : List (Event ι δ)) (hoffers : OffersOnly s events (· ∈ blocks)) :
    Meets blocks (s.run events) := by
  induction events generalizing s with
  | nil => exact h
  | cons event events ih =>
      obtain ⟨hnow, hlater⟩ := hoffers.tail
      exact ih (h.step hextends hsound hnow event) (hsound.step event) hlater

theorem Misses.run (hextends : Extends [] blocks) (h : Misses blocks s) (hsound : Sound start s)
    {greatest : ℕ}
    (hgreatest : IsGreatest {height | height ∈ recordedHeights start s.yielded} greatest)
    (hlowest : 0 < lowestKept (startHeight start) greatest) (events : List (Event ι δ))
    (hoffers : OffersOnly s events (· ∈ blocks)) :
    Misses blocks (s.run events) ∧ (s.run events).yielded = s.yielded := by
  induction events generalizing s with
  | nil => exact ⟨h, rfl⟩
  | cons event events ih =>
      obtain ⟨hnow, hlater⟩ := hoffers.tail
      obtain ⟨hmisses, hyielded⟩ :=
        h.step hextends hsound (hsound.window hgreatest) hlowest hnow event
      rw [← hyielded] at hgreatest
      obtain ⟨hend, hsame⟩ := ih hmisses (hsound.step event) hgreatest hlater
      exact ⟨hend, hsame.trans hyielded⟩

end Reorgs

theorem windowed_new (threadNum count : ℕ) (start : Option (WithHeightAndId ι Unit)) :
    Windowed start (State.new threadNum count start : State ι δ) where
  window := by
    cases start with
    | none => exact .inl ⟨rfl, rfl, rfl, rfl⟩
    | some last =>
        refine .inr ⟨last.height, ?_, fun height => ?_, le_rfl, ?_, le_rfl⟩
        · have hheights : recordedHeights (some last)
              (State.new threadNum count (some last) : State ι δ).yielded = [last.height] := rfl
          rw [hheights]
          exact ⟨List.mem_singleton_self _, fun other hmem => (List.mem_singleton.1 hmem).le⟩
        · have hkeys : (State.new threadNum count (some last) : State ι δ).prefetcher.prevHashes.keys =
              [last.height] := rfl
          rw [hkeys, List.mem_singleton]
          simp only [lowestKept, startHeight]
          omega
        · simp only [lowestKept, startHeight]
          change _ ≤ last.height + 1
          omega
  reset := by simp [State.new, State.started, Prefetcher.startWorkers, Phase.resets]

theorem sound_new (threadNum count : ℕ) (start : Option (WithHeightAndId ι Unit)) :
    Sound start (State.new threadNum count start : State ι δ) :=
  ⟨windowed_new threadNum count start, _, (Watched.inv_new threadNum count start).1⟩

theorem bounded_run [DecidableEq ι] {start : Option (WithHeightAndId ι Unit)} {s : State ι δ}
    (h : Sound start s) (hbounded : s.phase.bounded) (events : List (Event ι δ)) :
    (s.run events).phase.bounded := by
  induction events generalizing s with
  | nil => exact hbounded
  | cons event events ih =>
      exact ih (h.step event)
        (h.windowed.bounded_step hbounded (fun item p => h.offered_height) h.rx event)

section

variable [DecidableEq ι] {start : Option (WithHeightAndId ι Unit)} {s : State ι δ}
variable {blocks : List (RpcBlockWithPrevId ι δ)} {greatest : ℕ}

theorem OffersOnly.last {events : List (Event ι δ)} {offered : RpcBlockWithPrevId ι δ → Prop}
    (h : OffersOnly s events offered) {item : RpcBlockWithPrevId ι δ} {p : Prefetcher ι δ}
    (hoffered : Offered (s.run events) item p) : offered item := by
  have hall := h events.length item p
  rw [List.take_length] at hall
  exact hall hoffered

theorem Sound.panics_iff (h : Sound start s)
    (hwindow : Window (startHeight start) greatest s.prefetcher) {item : RpcBlockWithPrevId ι δ}
    {p : Prefetcher ι δ} (hoffered : Offered s item p) :
    (∃ panic, p.trackReorgs item = .error panic) ↔
      s.prefetcher.curHeight = lowestKept (startHeight start) greatest ∧
        0 < lowestKept (startHeight start) greatest := by
  obtain ⟨hcur, hprevHashes⟩ := hoffered.frame
  have hwindow' : Window (startHeight start) greatest p :=
    ⟨hprevHashes ▸ hwindow.keys, hwindow.above, hcur ▸ hwindow.low, hcur ▸ hwindow.high⟩
  rw [hwindow'.trackReorgs_panics_iff ((h.offered_height hoffered).trans hcur.symm), hcur]

/-- Above the lowest key a block of a chain without a common block leads one height down. -/
theorem Misses.goes_down (h : Misses blocks s) (hextends : Extends [] blocks)
    (hsound : Sound start s) (hwindow : Window (startHeight start) greatest s.prefetcher)
    (hlowest : 0 < lowestKept (startHeight start) greatest)
    (habove : s.prefetcher.curHeight ≠ lowestKept (startHeight start) greatest)
    {item : RpcBlockWithPrevId ι δ} {p : Prefetcher ι δ} (hmem : item ∈ blocks)
    (hoffered : Offered s item p) : p.trackReorgs item = .ok (true, p) := by
  cases htrack : p.trackReorgs item with
  | error panic => exact absurd ((hsound.panics_iff hwindow hoffered).1 ⟨panic, htrack⟩).1 habove
  | ok result =>
      obtain ⟨reorg, q⟩ := result
      obtain ⟨-, ⟨rfl, -⟩ | ⟨rfl, rfl, -⟩⟩ := Prefetcher.trackReorgs_eq_ok htrack
      · exact absurd htrack (h.not_yielded hextends (hlowest.trans_le hwindow.low) hmem hoffered)
      · rfl

end

/-- With `greatest` the greatest height recorded so far: the recorded heights are those
from `lowestKept` on, at most a thousand; `track_reorgs` panics exactly at the lowest of
them, above 0.  So a reorg whose last common block is recorded never makes it panic,
also while blocks of the old chain are still under way, and one whose last common block
is older yields nothing: every block leads one height down until the panic. -/
theorem reorg_window [DecidableEq ι] (threadNum count : ℕ)
    (start : Option (WithHeightAndId ι Unit)) (chain : List ι) (hstart : Starts start chain)
    (events : List (Event ι δ)) :
    let s := (State.new threadNum count start).run events
    s.phase.bounded ∧ ∀ greatest,
      IsGreatest {height | height ∈ recordedHeights start s.yielded} greatest →
      let lowest := max (startHeight start) (greatest - 999)
      (∀ height, height ∈ s.prefetcher.prevHashes.keys ↔ lowest ≤ height ∧ height ≤ greatest) ∧
      lowest ≤ s.prefetcher.curHeight ∧ s.prefetcher.curHeight ≤ greatest + 1 ∧
      s.prefetcher.prevHashes.len ≤ 1000 ∧
      (∀ item p, Offered s item p → ((∃ panic, p.trackReorgs item = .error panic) ↔
        s.prefetcher.curHeight = lowest ∧ 0 < lowest)) ∧
      ∀ blocks : List (RpcBlockWithPrevId ι δ), Extends [] blocks → ∀ fork,
        LastCommon (consumed chain s.yielded) blocks s.awaited fork → ∀ more,
        (lowest ≤ fork → OffersOnly s more (· ∈ blocks) →
          ∀ item p, Offered (s.run more) item p → ∃ result, p.trackReorgs item = .ok result) ∧
        (lowest ≤ fork → OffersOnly s more (fun item => item.block.height = fork + 1 →
            (idents blocks)[fork]? = some item.prevBlockId) →
          (s.run more).prefetcher.prevHashes.get fork ≠ none →
            ∀ item p, Offered (s.run more) item p → ∃ result, p.trackReorgs item = .ok result) ∧
        (fork < lowest → OffersOnly s more (· ∈ blocks) →
          (s.run more).yielded = s.yielded ∧
          lowest ≤ (s.run more).prefetcher.curHeight ∧
          ∀ item p, Offered (s.run more) item p →
            if (s.run more).prefetcher.curHeight = lowest then
              ∃ panic, p.trackReorgs item = .error panic
            else p.trackReorgs item = .ok (true, p)) := by
  have hsound := (sound_new (δ := δ) threadNum count start).run events
  have hinv := (inv_new (δ := δ) threadNum count hstart).run events
  intro s
  refine ⟨bounded_run (sound_new threadNum count start) trivial events, ?_⟩
  intro greatest hgreatest lowest
  have hwindow : Window (startHeight start) greatest s.prefetcher := hsound.window hgreatest
  refine ⟨hwindow.keys, hwindow.low, hwindow.high, hwindow.len_le,
    fun item p => hsound.panics_iff hwindow, fun blocks hextends fork hcommon more => ⟨?_, ?_, ?_⟩⟩
  · intro hkept hoffers item p hoffered
    obtain ⟨below, hbelow, hget⟩ := hcommon.meets hinv hwindow hkept
    have hmeets : Meets blocks s := ⟨fork, below, hbelow, hcommon.below, hget⟩
    exact (hmeets.run hextends hsound more hoffers).tracks (hsound.run more) hoffered
  · intro hkept hoffers hget item p hoffered
    obtain ⟨below, hbelow, hsome⟩ := hcommon.meets hinv hwindow hkept
    have hrooted : Rooted fork below.block.id s := by
      refine ⟨hcommon.below, fun other hother => ?_⟩
      exact Option.some.inj (hother.symm.trans hsome)
    refine (hrooted.run hsound more fun count other q hother hheight => ?_).tracks
      (hsound.run more) hget hoffered
    have hchild := hoffers count other q hother hheight
    rw [idents, List.getElem?_map, hbelow] at hchild
    exact (Option.some.inj hchild).symm
  · intro hout hoffers
    have hmisses : Misses blocks s := hcommon.misses hinv hwindow hout
    have hpos : 0 < lowestKept (startHeight start) greatest := Nat.zero_lt_of_lt hout
    obtain ⟨hend, hyielded⟩ := hmisses.run hextends hsound hgreatest hpos more hoffers
    have hlater : Window (startHeight start) greatest (s.run more).prefetcher :=
      (hsound.run more).window (by rwa [hyielded])
    refine ⟨hyielded, hlater.low, fun item p hoffered => ?_⟩
    split
    · rename_i heq
      exact ((hsound.run more).panics_iff hlater hoffered).2 ⟨heq, hpos⟩
    · rename_i hne
      exact hend.goes_down hextends (hsound.run more) hlater hpos hne (hoffers.last hoffered)
        hoffered

/-! ## A reorg within the window, and one from below it -/

section Offers

variable {s : State ι δ}

/-- The block that the thread looks at next. -/
def State.offered (s : State ι δ) : Option (RpcBlockWithPrevId ι δ) :=
  match s.phase with
  | .lookUp => s.prefetcher.outOfOrderItems.get s.prefetcher.curHeight
  | .receive => s.prefetcher.rx.bind fun channel =>
      channel.items.head?.filter fun item => item.block.height = s.prefetcher.curHeight
  | _ => none

theorem Offered.offered_eq {item : RpcBlockWithPrevId ι δ} {p : Prefetcher ι δ}
    (h : Offered s item p) : s.offered = some item := by
  cases h with
  | buffered item hphase hget => simp [State.offered, hphase, hget]
  | received channel item items hphase hrx hitems hheight =>
      simp [State.offered, hphase, hrx, hitems, hheight]

theorem exists_offered {item : RpcBlockWithPrevId ι δ} (h : s.offered = some item) :
    ∃ p, Offered s item p := by
  unfold State.offered at h
  split at h
  · rename_i hphase
    exact ⟨_, .buffered item hphase h⟩
  · rename_i hphase
    obtain ⟨channel, hrx, hhead⟩ := Option.bind_eq_some_iff.1 h
    obtain ⟨hfirst, hheight⟩ := Option.filter_eq_some_iff.1 hhead
    obtain ⟨items, hitems⟩ := List.head?_eq_some_iff.1 hfirst
    exact ⟨_, .received channel item items hphase hrx hitems (of_decide_eq_true hheight)⟩
  · cases h

/-- Whether every block that is offered while `events` happen is one of `blocks`. -/
def checkOffers [DecidableEq ι] [DecidableEq δ] (blocks : List (RpcBlockWithPrevId ι δ)) :
    List (Event ι δ) → State ι δ → Bool
  | [], s => s.offered.all (· ∈ blocks)
  | event :: events, s => s.offered.all (· ∈ blocks) && checkOffers blocks events (s.step event)

theorem offersOnly_of_check [DecidableEq ι] [DecidableEq δ]
    {blocks : List (RpcBlockWithPrevId ι δ)} (events : List (Event ι δ)) :
    ∀ {s : State ι δ}, checkOffers blocks events s = true → OffersOnly s events (· ∈ blocks) := by
  have hnow : ∀ {s : State ι δ}, s.offered.all (· ∈ blocks) = true →
      ∀ item p, Offered s item p → item ∈ blocks := by
    intro s hall item p hoffered
    simpa [hoffered.offered_eq] using hall
  induction events with
  | nil =>
      intro s h count item p hoffered
      rw [List.take_nil] at hoffered
      exact hnow h item p hoffered
  | cons event events ih =>
      intro s h count item p hoffered
      rw [checkOffers, Bool.and_eq_true] at h
      cases count with
      | zero => exact hnow h.1 item p hoffered
      | succ count => exact ih h.2 count item p hoffered

end Offers

/-- The block at height 2 is yielded as 12. -/
@[irreducible]
def yielding : List (Event ℕ Unit) :=
  [.next, .consumer] ++ fetchOne (serve [blockAt 2 12 11]) ++ [.consumer]

/-- Then the node has these blocks, and the one at height 3 arrives. -/
@[irreducible]
def arriving (blocks : List (RpcBlockWithPrevId ℕ Unit)) : List (Event ℕ Unit) :=
  [.next, .consumer] ++ fetchOne (serve blocks)

/-- A reorg is noticed, and the block one height below arrives. -/
@[irreducible]
def descending (blocks : List (RpcBlockWithPrevId ℕ Unit)) : List (Event ℕ Unit) :=
  [.consumer, .consumer] ++ List.replicate 3 (.worker 0 (serve blocks)) ++
    [.consumer, .consumer] ++ fetchOne (serve blocks)

/-- Block 12 has been replaced. -/
def replacedAbove : List (RpcBlockWithPrevId ℕ Unit) :=
  [blockAt 0 10 9, blockAt 1 11 10, blockAt 2 22 11, blockAt 3 23 22]

/-- And the block the iterator was started at as well. -/
def replacedBelow : List (RpcBlockWithPrevId ℕ Unit) :=
  [blockAt 0 10 9, blockAt 1 31 10, blockAt 2 32 31, blockAt 3 33 32]

@[irreducible]
def sinking : List (Event ℕ Unit) :=
  arriving replacedBelow ++ descending replacedBelow ++ descending replacedBelow

theorem abandoned_window :
    let s := (State.new 1 0 (some ⟨1, 11, ()⟩)).run yielding
    let bottom := s.run sinking
    (0 ∈ s.prefetcher.prevHashes.keys ↔ 1 ≤ 0) ∧ (2 ∈ s.prefetcher.prevHashes.keys ↔ 1 ≤ 2) ∧
      (∃ p result, Offered (s.run (arriving replacedAbove)) (blockAt 3 23 22) p ∧
        p.trackReorgs (blockAt 3 23 22) = .ok result) ∧
      bottom.yielded = s.yielded ∧ ∃ p panic, Offered bottom (blockAt 1 31 10) p ∧
        p.trackReorgs (blockAt 1 31 10) = .error panic := by
  intro s bottom
  have hheights : recordedHeights (some ⟨1, 11, ()⟩) s.yielded = [1, 2] := by decide +kernel
  have hgreatest : IsGreatest
      {height | height ∈ recordedHeights (some ⟨1, 11, ()⟩) s.yielded} 2 := by
    rw [hheights]
    refine ⟨by simp, fun height hmem => ?_⟩
    have hbound : ∀ other ∈ [1, 2], other ≤ 2 := by decide
    exact hbound height hmem
  obtain ⟨hkeys, -, -, -, -, hreorgs⟩ :=
    (reorg_window 1 0 (some ⟨1, 11, ()⟩) [10, 11] ⟨rfl, rfl⟩ yielding).2 2 hgreatest
  have hlowest : max (startHeight (some ⟨1, (11 : ℕ), ()⟩)) (2 - 999) = 1 := rfl
  have hchain : consumed [10, 11] s.yielded = [10, 11, 12] ∧ s.awaited = 3 := by decide +kernel
  have hcommon : ∀ (blocks : List (RpcBlockWithPrevId ℕ Unit)) (fork : ℕ), fork < 3 →
      [10, 11, 12][fork]? = (idents blocks)[fork]? →
      (∀ height < 3, fork < height → [10, 11, 12][height]? ≠ (idents blocks)[height]?) →
        LastCommon (consumed [10, 11] s.yielded) blocks s.awaited fork := by
    intro blocks fork hbelow hsame hdiffer
    rw [hchain.1, hchain.2]
    exact ⟨hbelow, hsame, fun height hlt hawaited => hdiffer height hawaited hlt⟩
  refine ⟨(hkeys 0).trans ?_, (hkeys 2).trans ?_, ?_, ?_⟩
  · rw [hlowest]
    decide
  · rw [hlowest]
    decide
  · have habove := hreorgs replacedAbove (by simp [Extends, replacedAbove, blockAt]) 1
      (hcommon _ 1 (by decide) rfl (by decide)) (arriving replacedAbove)
    obtain ⟨p, hoffered⟩ : ∃ p, Offered (s.run (arriving replacedAbove)) (blockAt 3 23 22) p :=
      exists_offered (by decide +kernel)
    obtain ⟨result, hok⟩ := habove.1 le_rfl (offersOnly_of_check _ (by decide +kernel)) _ p hoffered
    exact ⟨p, result, hoffered, hok⟩
  · have hbelow := hreorgs replacedBelow (by simp [Extends, replacedBelow, blockAt]) 0
      (hcommon _ 0 (by decide) rfl (by decide)) sinking
    obtain ⟨p, hoffered⟩ : ∃ p, Offered bottom (blockAt 1 31 10) p :=
      exists_offered (by decide +kernel)
    obtain ⟨hyielded, -, hend⟩ :=
      hbelow.2.2 (by rw [hlowest]; decide) (offersOnly_of_check _ (by decide +kernel))
    have hheight : bottom.prefetcher.curHeight = 1 := by decide +kernel
    have hpanic := hend _ p hoffered
    rw [if_pos (hheight.trans hlowest.symm)] at hpanic
    obtain ⟨panic, herror⟩ := hpanic
    exact ⟨hyielded, p, panic, hoffered, herror⟩

end BitcoinIndexer.Node
