import BitcoinIndexer.Node.Progress

/-!
# Where the blocks come from

A worker asks for the id at a height first and for the block of that id later, and the
node may answer each question differently.  What is true of the answers one by one is
true of every block on its way and of every block yielded.
-/

namespace BitcoinIndexer.Node

open BitcoinIndexer.OrderedMap

variable {ι δ : Type}

/-- The ids the node names for a height are `known` there, and the block it answers a
known id with is `valid`. -/
structure Truthful (known : ℕ → ι → Prop) (valid : RpcBlockWithPrevId ι δ → Prop)
    (rpc : Rpc ι δ) : Prop where
  ids : ∀ height id, rpc.getBlockIdByHeight height = .ok (some id) → known height id
  blocks : ∀ height id data prevBlockId, known height id →
    rpc.getBlockById id = .ok (some (data, prevBlockId)) →
      valid ⟨⟨height, id, data⟩, prevBlockId⟩

/-- All that the workers hold or have handed on was answered by the node. -/
structure Sourced (known : ℕ → ι → Prop) (valid : RpcBlockWithPrevId ι δ → Prop)
    (s : State ι δ) : Prop where
  asking : ∀ w ∈ s.prefetcher.threadJoins, ∀ height id, w.pc = .getBlock height id → known height id
  carried : ∀ item, s.prefetcher.Carries item → valid item
  yielded : ∀ item ∈ s.yielded, valid item

variable {known : ℕ → ι → Prop} {valid : RpcBlockWithPrevId ι δ → Prop} {s : State ι δ}

theorem Offered.carried {item : RpcBlockWithPrevId ι δ} {p : Prefetcher ι δ}
    (h : Offered s item p) : s.prefetcher.Carries item := by
  cases h with
  | buffered item hphase hget => exact .inr (.inr ⟨_, hget⟩)
  | received channel item items hphase hrx hitems hheight =>
      exact .inr (.inl (by simp [Prefetcher.channelItems, hrx, hitems]))

/-- Taking the block leaves nothing that was not carried before. -/
theorem Offered.carries {item other : RpcBlockWithPrevId ι δ} {p : Prefetcher ι δ}
    (h : Offered s item p) (hcarries : p.Carries other) : s.prefetcher.Carries other := by
  cases h with
  | buffered item hphase hget =>
      obtain hsending | hchannel | ⟨height, haside⟩ := hcarries
      · exact .inl hsending
      · exact .inr (.inl hchannel)
      · obtain rfl | hne := eq_or_ne height s.prefetcher.curHeight
        · exact absurd (BTreeMap.mem_keys_iff.2 ⟨_, haside⟩) (by simp [BTreeMap.keys_remove])
        · rw [BTreeMap.get_remove_of_ne _ hne] at haside
          exact .inr (.inr ⟨height, haside⟩)
  | received channel item items hphase hrx hitems hheight =>
      obtain hsending | hchannel | haside := hcarries
      · exact .inl hsending
      · have hmem : other ∈ items := hchannel
        exact .inr (.inl (by simp [Prefetcher.channelItems, hrx, hitems, hmem]))
      · exact .inr (.inr haside)

namespace Sourced

/-- Nothing of what the state holds is new. -/
theorem quiet (h : Sourced known valid s) {after : State ι δ}
    (hjoins : after.prefetcher.threadJoins = s.prefetcher.threadJoins)
    (hcarries : ∀ item, after.prefetcher.Carries item → s.prefetcher.Carries item)
    (hyielded : after.yielded = s.yielded) : Sourced known valid after where
  asking := by
    rw [hjoins]
    exact h.asking
  carried := fun item hitem => h.carried item (hcarries item hitem)
  yielded := by
    rw [hyielded]
    exact h.yielded

theorem restarted (h : Sourced known valid s) (p : Prefetcher ι δ) (threadNum height : ℕ) :
    Sourced known valid { s with prefetcher := p.restarted threadNum height, phase := .lookUp } where
  asking := by
    intro w hmem height id hpc
    rw [List.eq_of_mem_replicate hmem] at hpc
    simp [Worker.new] at hpc
  carried := by
    rintro item (⟨w, hmem, hsending⟩ | hchannel | ⟨key, haside⟩)
    · rw [List.eq_of_mem_replicate hmem] at hsending
      simp [Worker.new, Worker.sending] at hsending
    · simp [Prefetcher.restarted, Prefetcher.channelItems] at hchannel
    · simp [Prefetcher.restarted, BTreeMap.get, BTreeMap.empty] at haside
  yielded := h.yielded

/-- A worker goes on with what it was answered. -/
theorem worked (h : Sourced known valid s) {index : ℕ} {rpc : Rpc ι δ} {w w' : Worker ι δ}
    {p : Prefetcher ι δ} (hrpc : Truthful known valid rpc)
    (hget : s.prefetcher.threadJoins[index]? = some w)
    (hworked : Prefetcher.Worked s.prefetcher rpc w w' p) :
    Sourced known valid
      { s with prefetcher := { p with threadJoins := p.threadJoins.set index w' } } := by
  have hmem := List.mem_of_getElem? hget
  have hasking : ∀ height id, w'.pc = .getBlock height id → known height id := by
    intro height id hpc
    cases hworked with
    | identified inProgress asked found hanswer =>
        obtain ⟨rfl, rfl⟩ := WorkerPc.getBlock.inj hpc
        exact hrpc.ids asked found hanswer
    | _ => cases hpc
  have hsending : ∀ item, w'.sending = some item → valid item := by
    intro item hitem
    cases hworked with
    | fetched inProgress height id data prevBlockId hanswer =>
        have hknown := h.asking _ hmem height id rfl
        obtain rfl : (⟨⟨height, id, data⟩, prevBlockId⟩ : RpcBlockWithPrevId ι δ) = item := by
          simpa [Worker.sending] using hitem
        exact hrpc.blocks height id data prevBlockId hknown hanswer
    | _ => cases hitem
  have hjoins : p.threadJoins = s.prefetcher.threadJoins := by cases hworked <;> rfl
  have haside : p.outOfOrderItems = s.prefetcher.outOfOrderItems := by cases hworked <;> rfl
  have hchannel : ∀ item ∈ p.channelItems, s.prefetcher.Carries item := by
    intro item hitem
    cases hworked with
    | sent inProgress height sent channel hrx hroom =>
        obtain hold | hnew := List.mem_append.1 (show item ∈ channel.items ++ [sent] from hitem)
        · exact .inr (.inl (by simp [Prefetcher.channelItems, hrx, hold]))
        · exact .inl ⟨_, hmem, by rw [List.mem_singleton.1 hnew]; rfl⟩
    | _ => exact .inr (.inl hitem)
  constructor
  case asking =>
    intro other hother
    obtain hold | rfl := List.mem_or_eq_of_mem_set hother
    · exact h.asking other (hjoins ▸ hold)
    · exact hasking
  case carried =>
    rintro item (⟨other, hother, hitem⟩ | hitem | ⟨height, hitem⟩)
    · obtain hold | rfl := List.mem_or_eq_of_mem_set hother
      · exact h.carried item (.inl ⟨other, hjoins ▸ hold, hitem⟩)
      · exact hsending item hitem
    · exact h.carried item (hchannel item hitem)
    · exact h.carried item (.inr (.inr ⟨height, haside ▸ hitem⟩))
  case yielded => exact h.yielded

variable [DecidableEq ι]

theorem step (h : Sourced known valid s) (event : Event ι δ)
    (hanswers : event.answers (Truthful known valid)) : Sourced known valid (s.step event) := by
  have htransition := transition_step s event
  generalize s.step event = after at htransition
  cases htransition with
  | worked index rpc w w' p hget hstep =>
      exact h.worked hanswers hget (Prefetcher.worked_of_workerStep hstep)
  | yielded item p q hoffered htrack =>
      obtain ⟨-, ⟨-, -, rfl, -⟩ | ⟨hfalse, -⟩⟩ := Prefetcher.trackReorgs_eq_ok htrack
      · have hbefore : Sourced known valid { s with prefetcher := p } :=
          h.quiet (by cases hoffered <;> rfl) (fun other => hoffered.carries) rfl
        refine ⟨hbefore.asking, hbefore.carried, ?_⟩
        intro other hmem
        obtain hold | hnew := List.mem_append.1 hmem
        · exact h.yielded other hold
        · exact List.mem_singleton.1 hnew ▸ h.carried item hoffered.carried
      · cases hfalse
  | reorgFound item p hoffered | trackPanicked item p panic hoffered =>
      exact h.quiet (by cases hoffered <;> rfl) (fun other => hoffered.carries) rfl
  | putAside channel item items hphase hrx hitems hheight =>
      refine h.quiet rfl (fun other hcarries => ?_) rfl
      have hfirst : s.prefetcher.Carries item :=
        .inr (.inl (by simp [Prefetcher.channelItems, hrx, hitems]))
      obtain hsending | hmem | ⟨height, haside⟩ := hcarries
      · exact .inl hsending
      · have hmem : other ∈ items := hmem
        exact .inr (.inl (by simp [Prefetcher.channelItems, hrx, hitems, hmem]))
      · obtain rfl | hne := eq_or_ne height item.block.height
        · rw [BTreeMap.get_insert_self, Option.some.injEq] at haside
          exact haside ▸ hfirst
        · rw [BTreeMap.get_insert_of_ne _ _ hne] at haside
          exact .inr (.inr ⟨height, haside⟩)
  | belowCurrent channel item items _ hrx hitems | drained stop channel item items _ hrx hitems =>
      refine h.quiet rfl (fun other hcarries => ?_) rfl
      obtain hsending | hmem | haside := hcarries
      · exact .inl hsending
      · have hmem : other ∈ items := hmem
        exact .inr (.inl (by simp [Prefetcher.channelItems, hrx, hitems, hmem]))
      · exact .inr (.inr haside)
  | fastSyncRestart | reorgRestart => exact h.restarted _ _ _
  | _ => exact h.quiet rfl (fun _ hcarries => hcarries) rfl

end Sourced

theorem sourced_new (threadNum count : ℕ) (start : Option (WithHeightAndId ι Unit)) :
    Sourced known valid (State.new threadNum count start) := by
  constructor
  case asking =>
    intro w hmem height id hpc
    simp only [State.new, State.started, Prefetcher.startWorkers, if_true] at hmem
    rw [List.eq_of_mem_replicate hmem] at hpc
    simp [Worker.new] at hpc
  case carried =>
    rintro item (⟨w, hmem, hsending⟩ | hchannel | ⟨key, haside⟩)
    · simp only [State.new, State.started, Prefetcher.startWorkers, if_true] at hmem
      rw [List.eq_of_mem_replicate hmem] at hsending
      simp [Worker.new, Worker.sending] at hsending
    · simp [State.new, State.started, Prefetcher.startWorkers, Prefetcher.channelItems] at hchannel
    · simp [State.new, State.started, Prefetcher.startWorkers, BTreeMap.get, BTreeMap.empty]
        at haside
  case yielded => simp [State.new, State.started, Prefetcher.startWorkers]

end BitcoinIndexer.Node
