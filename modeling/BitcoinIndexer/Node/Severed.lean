import BitcoinIndexer.Node.Answers

/-!
# A start above a replaced block

No block of the node is built on the one the prefetcher starts above.  It goes down by one
height, and there it has no hash to compare with.
-/

namespace BitcoinIndexer.Node

open BitcoinIndexer.OrderedMap

variable {ι δ : Type}

/-- The prefetcher has only the hash of the block `id` at `height`, which no block that it is
answered with is built on. -/
structure Severed (known : ℕ → ι → Prop) (height : ℕ) (id : ι) (s : State ι δ) : Prop where
  unlinked : Sourced known (fun item => item.prevBlockId ≠ id) s
  yielded : s.yielded = []
  prevHashes : s.prefetcher.prevHashes = BTreeMap.empty.insert height id
  low : s.prefetcher.curHeight = height + 1 ∨ s.prefetcher.curHeight = height ∧
    s.phase ≠ .finish .reorg ∧ s.phase ≠ .drain .reorg

variable {known : ℕ → ι → Prop} {height : ℕ} {id : ι} {s : State ι δ}

theorem severed_new (threadNum count height : ℕ) (id : ι) :
    Severed known height id (State.new threadNum count (some ⟨height, id, ()⟩) : State ι δ) where
  unlinked := sourced_new threadNum count _
  yielded := by simp [State.new, State.started, Prefetcher.startWorkers]
  prevHashes := by simp [State.new, State.started, Prefetcher.startWorkers]
  low := .inl (by simp [State.new, State.started, Prefetcher.startWorkers])

namespace Severed

/-- Only the hash of the block at the start is there. -/
theorem get_eq_some (h : Severed known height id s) {key : ℕ} {stored : ι}
    (hget : s.prefetcher.prevHashes.get key = some stored) : key = height ∧ stored = id := by
  rw [h.prevHashes] at hget
  obtain rfl | hne := eq_or_ne key height
  · rw [BTreeMap.get_insert_self, Option.some.injEq] at hget
    exact ⟨rfl, hget.symm⟩
  · rw [BTreeMap.get_insert_of_ne _ _ hne] at hget
    cases hget

variable [DecidableEq ι]

/-- What `track_reorgs` says: nothing links, and only at the first height is there a hash that
shows it. -/
theorem tracked (h : Severed known height id s) (hpos : 0 < height) {item : RpcBlockWithPrevId ι δ}
    {p q : Prefetcher ι δ} {reorg : Bool} (hoffered : Offered s item p)
    (htrack : p.trackReorgs item = .ok (reorg, q)) :
    reorg = true ∧ s.prefetcher.curHeight = height + 1 := by
  obtain ⟨hcur, hprev⟩ := hoffered.frame
  obtain ⟨-, ⟨-, hlinks, -⟩ | ⟨rfl, -, habove, stored, hstored, -⟩⟩ :=
    Prefetcher.trackReorgs_eq_ok htrack
  · have habove : 0 < p.curHeight := by
      rw [hcur]
      obtain hcur | ⟨hcur, -⟩ := h.low
      · exact hcur ▸ Nat.succ_pos height
      · exact hcur ▸ hpos
    have hget := hlinks habove
    rw [hprev] at hget
    obtain ⟨-, hid⟩ := h.get_eq_some hget
    exact absurd hid (h.unlinked.carried item hoffered.carried)
  · refine ⟨rfl, ?_⟩
    rw [hprev] at hstored
    obtain ⟨hkey, -⟩ := h.get_eq_some hstored
    rw [← hcur, ← hkey, Nat.sub_add_cancel habove]

theorem step (h : Severed known height id s) (hpos : 0 < height) (event : Event ι δ)
    (hanswers : event.answers (Truthful known fun item => item.prevBlockId ≠ id)) :
    Severed known height id (s.step event) := by
  have hunlinked := h.unlinked.step event hanswers
  have htransition := transition_step s event
  generalize s.step event = after at hunlinked htransition
  cases htransition with
  | stay => exact h
  | worked index rpc w w' p hget hstep =>
      obtain ⟨nextHeight, rx, rfl⟩ := (Prefetcher.worked_of_workerStep hstep).frame
      exact ⟨hunlinked, h.yielded, h.prevHashes, h.low⟩
  | yielded item p q hoffered htrack => cases (h.tracked hpos hoffered htrack).1
  | reorgFound item p hoffered htrack =>
      obtain ⟨-, hcur⟩ := h.tracked hpos hoffered htrack
      obtain ⟨hsame, hprev⟩ := hoffered.frame
      exact ⟨hunlinked, h.yielded, hprev.trans h.prevHashes, .inl (hsame.trans hcur)⟩
  | trackPanicked item p panic hoffered =>
      obtain ⟨hsame, hprev⟩ := hoffered.frame
      refine ⟨hunlinked, h.yielded, hprev.trans h.prevHashes, ?_⟩
      exact h.low.imp (hsame.trans ·) fun hlow => ⟨hsame.trans hlow.1, by simp, by simp⟩
  | finished stop hphase =>
      refine ⟨hunlinked, h.yielded, h.prevHashes, h.low.imp_right fun hlow => ⟨hlow.1, by simp, ?_⟩⟩
      rintro ⟨rfl⟩
      exact hlow.2.1 hphase
  | reorgRestart channel hphase =>
      refine ⟨hunlinked, h.yielded, h.prevHashes, .inr ⟨?_, by simp, by simp⟩⟩
      obtain hcur | ⟨-, -, hdrain⟩ := h.low
      · exact Nat.sub_eq_of_eq_add hcur
      · exact absurd hphase hdrain
  | putAside | drained => exact ⟨hunlinked, h.yielded, h.prevHashes, h.low⟩
  | _ =>
      exact ⟨hunlinked, h.yielded, h.prevHashes,
        h.low.imp_right fun hlow => ⟨hlow.1, by simp, by simp⟩⟩

end Severed

end BitcoinIndexer.Node
