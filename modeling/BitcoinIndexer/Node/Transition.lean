import BitcoinIndexer.Node.Prefetcher

/-!
# What one step of the prefetcher can do

The inversion of `State.step`, and what `track_reorgs` has found out where it does not
panic.
-/

namespace BitcoinIndexer.Node

open BitcoinIndexer.OrderedMap

variable {ι δ : Type}

namespace Prefetcher

/-- `prev_hashes` with `item` recorded and the height that leaves the window removed. -/
def recorded (p : Prefetcher ι δ) (item : RpcBlockWithPrevId ι δ) : BTreeMap ℕ ι :=
  if windowSize ≤ p.curHeight then
    (p.prevHashes.insert item.block.height item.block.id).remove (p.curHeight - windowSize)
  else p.prevHashes.insert item.block.height item.block.id

theorem record_eq_ok {p q : Prefetcher ι δ} {item : RpcBlockWithPrevId ι δ} {reorg : Bool}
    (h : p.record item = .ok (reorg, q)) :
    reorg = false ∧ q = { p with prevHashes := p.recorded item } ∧
      (p.recorded item).len ≤ windowSize := by
  change (if (p.recorded item).len ≤ windowSize then _ else _) = _ at h
  by_cases hlen : (p.recorded item).len ≤ windowSize
  · simp only [hlen, if_true, Except.ok.injEq, Prod.mk.injEq] at h
    exact ⟨h.1.symm, h.2.symm, hlen⟩
  · simp [hlen] at h

/-- What one step of a worker can do; the prefetcher is `q` afterwards. -/
inductive Worked (p : Prefetcher ι δ) (rpc : Rpc ι δ) :
    Worker ι δ → Worker ι δ → Prefetcher ι δ → Prop where
  | claimed (inProgress : BTreeMap ℕ Unit) :
      Worked p rpc ⟨inProgress, .fetchAdd⟩ ⟨inProgress, .register p.nextHeight⟩
        { p with nextHeight := p.nextHeight + 1 }
  | registered (inProgress : BTreeMap ℕ Unit) (height : ℕ) :
      Worked p rpc ⟨inProgress, .register height⟩
        ⟨inProgress.insert height (), .checkFinish height⟩ p
  | told (inProgress : BTreeMap ℕ Unit) (height : ℕ) (hfinish : p.workersFinish = true) :
      Worked p rpc ⟨inProgress, .checkFinish height⟩ ⟨inProgress, .returned⟩ p
  | untold (inProgress : BTreeMap ℕ Unit) (height : ℕ) (hfinish : p.workersFinish = false) :
      Worked p rpc ⟨inProgress, .checkFinish height⟩ ⟨inProgress, .getId height⟩ p
  | identified (inProgress : BTreeMap ℕ Unit) (height : ℕ) (id : ι)
      (hanswer : rpc.getBlockIdByHeight height = .ok (some id)) :
      Worked p rpc ⟨inProgress, .getId height⟩ ⟨inProgress, .getBlock height id⟩ p
  | noBlock (inProgress : BTreeMap ℕ Unit) (height : ℕ)
      (hanswer : rpc.getBlockIdByHeight height = .ok none) :
      Worked p rpc ⟨inProgress, .getId height⟩ ⟨inProgress, .checkFinish height⟩ p
  | idFailed (inProgress : BTreeMap ℕ Unit) (height : ℕ) (error : RpcError)
      (hanswer : rpc.getBlockIdByHeight height = .error error) :
      Worked p rpc ⟨inProgress, .getId height⟩ ⟨inProgress, .retry height⟩ p
  | fetched (inProgress : BTreeMap ℕ Unit) (height : ℕ) (id : ι) (data : δ) (prevBlockId : ι)
      (hanswer : rpc.getBlockById id = .ok (some (data, prevBlockId))) :
      Worked p rpc ⟨inProgress, .getBlock height id⟩
        ⟨inProgress, .send height ⟨⟨height, id, data⟩, prevBlockId⟩⟩ p
  | blockGone (inProgress : BTreeMap ℕ Unit) (height : ℕ) (id : ι)
      (hanswer : rpc.getBlockById id = .ok none) :
      Worked p rpc ⟨inProgress, .getBlock height id⟩ ⟨inProgress, .checkFinish height⟩ p
  | blockFailed (inProgress : BTreeMap ℕ Unit) (height : ℕ) (id : ι) (error : RpcError)
      (hanswer : rpc.getBlockById id = .error error) :
      Worked p rpc ⟨inProgress, .getBlock height id⟩ ⟨inProgress, .retry height⟩ p
  | retried (inProgress : BTreeMap ℕ Unit) (height : ℕ) (ahead : ℕ)
      (hahead : Worker.aheadMinimum (⟨inProgress, .retry height⟩ : Worker ι δ) height = some ahead) :
      Worked p rpc ⟨inProgress, .retry height⟩ ⟨inProgress, .checkFinish height⟩ p
  | noMinimum (inProgress : BTreeMap ℕ Unit) (height : ℕ)
      (hahead : Worker.aheadMinimum (⟨inProgress, .retry height⟩ : Worker ι δ) height = none) :
      Worked p rpc ⟨inProgress, .retry height⟩ ⟨inProgress, .panicked⟩ p
  | sent (inProgress : BTreeMap ℕ Unit) (height : ℕ) (item : RpcBlockWithPrevId ι δ)
      (channel : Channel ι δ) (hrx : p.rx = some channel)
      (hroom : channel.items.length < channel.capacity) :
      Worked p rpc ⟨inProgress, .send height item⟩ ⟨inProgress, .markFetched height⟩
        { p with rx := some { channel with items := channel.items ++ [item] } }
  | disconnected (inProgress : BTreeMap ℕ Unit) (height : ℕ) (item : RpcBlockWithPrevId ι δ)
      (hrx : p.rx = none) :
      Worked p rpc ⟨inProgress, .send height item⟩ ⟨inProgress, .panicked⟩ p
  | marked (inProgress : BTreeMap ℕ Unit) (height : ℕ)
      (hget : inProgress.get height = some ()) :
      Worked p rpc ⟨inProgress, .markFetched height⟩ ⟨inProgress.remove height, .fetchAdd⟩ p
  | unmarked (inProgress : BTreeMap ℕ Unit) (height : ℕ) (hget : inProgress.get height = none) :
      Worked p rpc ⟨inProgress, .markFetched height⟩ ⟨inProgress, .panicked⟩ p

theorem worked_of_workerStep {p q : Prefetcher ι δ} {rpc : Rpc ι δ} {w w' : Worker ι δ}
    (hstep : p.workerStep rpc w = some (w', q)) : Worked p rpc w w' q := by
  obtain ⟨inProgress, pc⟩ := w
  cases pc with
  | fetchAdd =>
      cases hstep
      exact .claimed inProgress
  | register height =>
      cases hstep
      exact .registered inProgress height
  | checkFinish height =>
      cases hfinish : p.workersFinish <;> simp only [workerStep, hfinish] at hstep <;> cases hstep
      · exact .untold inProgress height hfinish
      · exact .told inProgress height hfinish
  | getId height =>
      simp only [workerStep] at hstep
      split at hstep <;> cases hstep
      · exact .idFailed inProgress height _ ‹_›
      · exact .noBlock inProgress height ‹_›
      · exact .identified inProgress height _ ‹_›
  | getBlock height id =>
      simp only [workerStep] at hstep
      split at hstep <;> cases hstep
      · exact .blockFailed inProgress height id _ ‹_›
      · exact .blockGone inProgress height id ‹_›
      · exact .fetched inProgress height id _ _ ‹_›
  | retry height =>
      simp only [workerStep] at hstep
      split at hstep <;> cases hstep
      · exact .noMinimum inProgress height ‹_›
      · exact .retried inProgress height _ ‹_›
  | send height item =>
      simp only [workerStep] at hstep
      split at hstep
      · cases hstep
        exact .disconnected inProgress height item ‹_›
      · split at hstep <;> cases hstep
        exact .sent inProgress height item _ ‹_› ‹_›
  | markFetched height =>
      simp only [workerStep] at hstep
      split at hstep <;> cases hstep
      · exact .unmarked inProgress height ‹_›
      · exact .marked inProgress height ‹_›
  | returned => cases hstep
  | panicked => cases hstep

variable [DecidableEq ι]

/-- Where `track_reorgs` goes on, the block has the height waited for, and above 0 its
predecessor is compared with a recorded one. -/
theorem trackReorgs_eq_ok {p q : Prefetcher ι δ} {item : RpcBlockWithPrevId ι δ} {reorg : Bool}
    (h : p.trackReorgs item = .ok (reorg, q)) :
    item.block.height = p.curHeight ∧
      ((reorg = false ∧ (0 < p.curHeight →
          p.prevHashes.get (p.curHeight - 1) = some item.prevBlockId) ∧
        q = { p with prevHashes := p.recorded item } ∧ (p.recorded item).len ≤ windowSize) ∨
      (reorg = true ∧ q = p ∧ 0 < p.curHeight ∧
        ∃ stored, p.prevHashes.get (p.curHeight - 1) = some stored ∧
          stored ≠ item.prevBlockId)) := by
  unfold trackReorgs at h
  split at h
  · cases h
  rename_i hheight
  refine ⟨not_not.1 hheight, ?_⟩
  split at h
  · rename_i hpos
    split at h
    · rename_i stored hstored
      split at h
      · rename_i hne
        cases h
        exact .inr ⟨rfl, rfl, hpos, stored, hstored, hne⟩
      · rename_i heq
        obtain ⟨hfalse, hq, hlen⟩ := record_eq_ok h
        exact .inl ⟨hfalse, fun _ => by rw [hstored, not_not.1 heq], hq, hlen⟩
    · rename_i hnone
      split at h
      · rename_i first maxPrevHash hfirst hlast
        split at h
        · cases h
        split at h
        · cases h
        -- the greatest key is the height below, so it would have been found
        rename_i hmax
        have hmax : p.curHeight - 1 = maxPrevHash.1 := by omega
        rw [hmax, BTreeMap.get_of_lastKeyValue hlast] at hnone
        cases hnone
      · cases h
  · rename_i hzero
    obtain ⟨hfalse, hq, hlen⟩ := record_eq_ok h
    exact .inl ⟨hfalse, fun hpos => absurd hpos hzero, hq, hlen⟩

/-- Where `track_reorgs` panics, a hash is missing or there are too many. -/
theorem trackReorgs_eq_error {p : Prefetcher ι δ} {item : RpcBlockWithPrevId ι δ} {panic : Panic ι}
    (hheight : item.block.height = p.curHeight) (h : p.trackReorgs item = .error panic) :
    (panic = .windowExceeded ∧ windowSize < (p.recorded item).len) ∨
      (0 < p.curHeight ∧ p.prevHashes.get (p.curHeight - 1) = none ∧
        ((panic = .atLeastOneElement ∧ p.prevHashes.entries = []) ∨
          panic = .reorgBeyondAcceptableDepth p.curHeight ∨
          ∃ maxPrevHash, panic = .noPrevHash p.curHeight item.block.id maxPrevHash)) := by
  have hrecord : p.record item = .error panic →
      panic = .windowExceeded ∧ windowSize < (p.recorded item).len := by
    intro herror
    change (if (p.recorded item).len ≤ windowSize then _ else _) = _ at herror
    split at herror
    · cases herror
    · cases herror
      exact ⟨rfl, by omega⟩
  unfold trackReorgs at h
  rw [if_neg (not_not.2 hheight)] at h
  split at h
  · rename_i hpos
    split at h
    · split at h
      · cases h
      · exact .inl (hrecord h)
    · rename_i hnone
      split at h
      · rename_i first maxPrevHash hfirst hlast
        split at h
        · cases h
          exact .inr ⟨hpos, hnone, .inr (.inl rfl)⟩
        · split at h
          · cases h
            exact .inr ⟨hpos, hnone, .inr (.inr ⟨_, rfl⟩)⟩
          · exact .inl (hrecord h)
      · rename_i hmissing
        cases h
        refine .inr ⟨hpos, hnone, .inl ⟨rfl, ?_⟩⟩
        cases hentries : p.prevHashes.entries with
        | nil => rfl
        | cons entry entries =>
            have hlast := List.getLast?_eq_some_getLast (l := entry :: entries) (by simp)
            exact absurd (by rw [BTreeMap.lastKeyValue, hentries, hlast])
              (hmissing entry _ (by rw [BTreeMap.firstKeyValue, hentries]; rfl))
  · exact .inl (hrecord h)

/-- A generation of workers started at `height`. -/
def restarted (p : Prefetcher ι δ) (threadNum : ℕ) (height : ℕ) : Prefetcher ι δ :=
  { p with
    rx := some ⟨threadNum * 64, []⟩
    threadJoins := List.replicate threadNum .new
    outOfOrderItems := .empty
    curHeight := height
    workersFinish := false
    threadNum := threadNum
    nextHeight := height }

end Prefetcher

/-- `item` is what the thread looks at next, and `p` is left when it is taken. -/
inductive Offered (s : State ι δ) : RpcBlockWithPrevId ι δ → Prefetcher ι δ → Prop where
  | buffered (item : RpcBlockWithPrevId ι δ) (hphase : s.phase = .lookUp)
      (hget : s.prefetcher.outOfOrderItems.get s.prefetcher.curHeight = some item) :
      Offered s item { s.prefetcher with
        outOfOrderItems := s.prefetcher.outOfOrderItems.remove s.prefetcher.curHeight }
  | received (channel : Channel ι δ) (item : RpcBlockWithPrevId ι δ)
      (items : List (RpcBlockWithPrevId ι δ)) (hphase : s.phase = .receive)
      (hrx : s.prefetcher.rx = some channel) (hitems : channel.items = item :: items)
      (hheight : item.block.height = s.prefetcher.curHeight) :
      Offered s item { s.prefetcher with rx := some { channel with items := items } }

variable [DecidableEq ι]

inductive Transition (s : State ι δ) : Event ι δ → State ι δ → Prop where
  | stay (event : Event ι δ) (hwaits : s.step? event = none) : Transition s event s
  | worked (index : ℕ) (rpc : Rpc ι δ) (w w' : Worker ι δ) (p : Prefetcher ι δ)
      (hget : s.prefetcher.threadJoins[index]? = some w)
      (hstep : s.prefetcher.workerStep rpc w = some (w', p)) :
      Transition s (.worker index rpc)
        { s with prefetcher := { p with threadJoins := p.threadJoins.set index w' } }
  | fastSyncEnded (hphase : s.phase = .idle)
      (hend : s.prefetcher.endOfFastSync = s.prefetcher.curHeight) :
      Transition s .next { s with phase := .finish .endOfFastSync }
  | asked (hphase : s.phase = .idle)
      (hend : s.prefetcher.endOfFastSync ≠ s.prefetcher.curHeight) :
      Transition s .next { s with phase := .lookUp }
  | notBuffered (hphase : s.phase = .lookUp)
      (hget : s.prefetcher.outOfOrderItems.get s.prefetcher.curHeight = none) :
      Transition s .consumer { s with phase := .receive }
  | yielded (item : RpcBlockWithPrevId ι δ) (p q : Prefetcher ι δ) (hoffered : Offered s item p)
      (htrack : p.trackReorgs item = .ok (false, q)) :
      Transition s .consumer
        ⟨{ q with curHeight := q.curHeight + 1 }, .idle, s.yielded ++ [item]⟩
  | reorgFound (item : RpcBlockWithPrevId ι δ) (p : Prefetcher ι δ) (hoffered : Offered s item p)
      (htrack : p.trackReorgs item = .ok (true, p)) :
      Transition s .consumer { s with prefetcher := p, phase := .finish .reorg }
  | trackPanicked (item : RpcBlockWithPrevId ι δ) (p : Prefetcher ι δ) (panic : Panic ι)
      (hoffered : Offered s item p) (htrack : p.trackReorgs item = .error panic) :
      Transition s .consumer { s with prefetcher := p, phase := .panicked panic }
  | putAside (channel : Channel ι δ) (item : RpcBlockWithPrevId ι δ)
      (items : List (RpcBlockWithPrevId ι δ)) (hphase : s.phase = .receive)
      (hrx : s.prefetcher.rx = some channel) (hitems : channel.items = item :: items)
      (hheight : s.prefetcher.curHeight < item.block.height) :
      Transition s .consumer { s with prefetcher := { s.prefetcher with
        rx := some { channel with items := items }
        outOfOrderItems := s.prefetcher.outOfOrderItems.insert item.block.height item } }
  | belowCurrent (channel : Channel ι δ) (item : RpcBlockWithPrevId ι δ)
      (items : List (RpcBlockWithPrevId ι δ)) (hphase : s.phase = .receive)
      (hrx : s.prefetcher.rx = some channel) (hitems : channel.items = item :: items)
      (hheight : item.block.height < s.prefetcher.curHeight) :
      Transition s .consumer { s with
        prefetcher := { s.prefetcher with rx := some { channel with items := items } }
        phase := .panicked (.heightBelowCurrent item.block.height) }
  | disconnected (channel : Channel ι δ) (hphase : s.phase = .receive)
      (hrx : s.prefetcher.rx = some channel) (hitems : channel.items = [])
      (hended : s.prefetcher.threadJoins.all Worker.ended = true) :
      Transition s .consumer { s with phase := .panicked .workersDisconnected }
  | rxMissing (panic : Panic ι) (hrx : s.prefetcher.rx = none) :
      Transition s .consumer { s with phase := .panicked panic }
  | finished (stop : Stop) (hphase : s.phase = .finish stop) :
      Transition s .consumer
        { s with prefetcher := { s.prefetcher with workersFinish := true }, phase := .drain stop }
  | drained (stop : Stop) (channel : Channel ι δ) (item : RpcBlockWithPrevId ι δ)
      (items : List (RpcBlockWithPrevId ι δ)) (hphase : s.phase = .drain stop)
      (hrx : s.prefetcher.rx = some channel) (hitems : channel.items = item :: items) :
      Transition s .consumer
        { s with prefetcher := { s.prefetcher with rx := some { channel with items := items } } }
  | fastSyncRestart (channel : Channel ι δ) (hphase : s.phase = .drain .endOfFastSync)
      (hrx : s.prefetcher.rx = some channel) (hitems : channel.items = [])
      (hended : s.prefetcher.threadJoins.all Worker.ended = true) :
      Transition s .consumer { s with
        prefetcher := s.prefetcher.restarted 1 s.prefetcher.curHeight, phase := .lookUp }
  | reorgRestart (channel : Channel ι δ) (hphase : s.phase = .drain .reorg)
      (hrx : s.prefetcher.rx = some channel) (hitems : channel.items = [])
      (hended : s.prefetcher.threadJoins.all Worker.ended = true)
      (hpos : 0 < s.prefetcher.curHeight) :
      Transition s .consumer { s with
        prefetcher := s.prefetcher.restarted s.prefetcher.threadNum (s.prefetcher.curHeight - 1)
        phase := .lookUp }
  | resetAtZero (channel : Channel ι δ) (hphase : s.phase = .drain .reorg)
      (hrx : s.prefetcher.rx = some channel) (hitems : channel.items = [])
      (hzero : s.prefetcher.curHeight = 0) :
      Transition s .consumer { s with phase := .panicked .resetAtZero }

variable {s : State ι δ}

theorem transition_deliver {item : RpcBlockWithPrevId ι δ} {p : Prefetcher ι δ}
    (hoffered : Offered s item p) :
    Transition s .consumer ({ s with prefetcher := p }.deliver item) := by
  cases htrack : p.trackReorgs item with
  | error panic =>
      simp only [State.deliver, htrack]
      exact .trackPanicked item p panic hoffered htrack
  | ok result =>
      obtain ⟨reorg, q⟩ := result
      cases reorg with
      | false =>
          simp only [State.deliver, htrack]
          exact .yielded item p q hoffered htrack
      | true =>
          obtain ⟨-, ⟨hfalse, -⟩ | ⟨-, rfl, -⟩⟩ := Prefetcher.trackReorgs_eq_ok htrack
          · cases hfalse
          · simp only [State.deliver, htrack]
            exact .reorgFound item q hoffered htrack

theorem transition_lookUp (hphase : s.phase = .lookUp) {after : State ι δ}
    (hstep : s.consumerStep = some after) : Transition s .consumer after := by
  simp only [State.consumerStep, hphase] at hstep
  cases hget : s.prefetcher.outOfOrderItems.get s.prefetcher.curHeight with
  | none =>
      simp only [hget, Option.some.injEq] at hstep
      rw [← hstep]
      exact .notBuffered hphase hget
  | some item =>
      simp only [hget, Option.some.injEq] at hstep
      rw [← hstep, ← hphase]
      exact transition_deliver (.buffered item hphase hget)

theorem transition_receive (hphase : s.phase = .receive) {after : State ι δ}
    (hstep : s.consumerStep = some after) : Transition s .consumer after := by
  simp only [State.consumerStep, hphase] at hstep
  cases hrx : s.prefetcher.rx with
  | none =>
      simp only [hrx, Option.some.injEq] at hstep
      rw [← hstep]
      exact .rxMissing _ hrx
  | some channel =>
      cases hitems : channel.items with
      | nil =>
          by_cases hended : s.prefetcher.threadJoins.all Worker.ended = true
          · simp only [hrx, hitems, hended, if_true, Option.some.injEq] at hstep
            rw [← hstep]
            exact .disconnected channel hphase hrx hitems hended
          · simp [hrx, hitems, hended] at hstep
      | cons item items =>
          simp only [hrx, hitems, Option.some.injEq, State.receive] at hstep
          rw [← hstep]
          split
          · rename_i hheight
            rw [← hphase]
            exact transition_deliver (.received channel item items hphase hrx hitems hheight)
          · rename_i hheight
            split
            · rename_i hlt
              rw [← hphase]
              exact .putAside channel item items hphase hrx hitems hlt
            · exact .belowCurrent channel item items hphase hrx hitems (by omega)

theorem transition_drain {stop : Stop} (hphase : s.phase = .drain stop) {after : State ι δ}
    (hstep : s.consumerStep = some after) : Transition s .consumer after := by
  simp only [State.consumerStep, hphase] at hstep
  cases hrx : s.prefetcher.rx with
  | none =>
      simp only [hrx, Option.some.injEq] at hstep
      rw [← hstep]
      exact .rxMissing _ hrx
  | some channel =>
      cases hitems : channel.items with
      | cons item items =>
          simp only [hrx, hitems, Option.some.injEq] at hstep
          rw [← hstep, ← hphase]
          exact .drained stop channel item items hphase hrx hitems
      | nil =>
          by_cases hended : s.prefetcher.threadJoins.all Worker.ended = true
          · simp only [hrx, hitems, hended, if_true, Option.some.injEq] at hstep
            rw [← hstep]
            cases stop with
            | endOfFastSync => exact .fastSyncRestart channel hphase hrx hitems hended
            | reorg =>
                by_cases hpos : 0 < s.prefetcher.curHeight
                · simp only [State.restart, Prefetcher.joinWorkers, hpos, if_true]
                  exact .reorgRestart channel hphase hrx hitems hended hpos
                · simp only [State.restart, Prefetcher.joinWorkers, hpos, if_false]
                  exact .resetAtZero channel hphase hrx hitems (by omega)
          · simp [hrx, hitems, hended] at hstep

theorem transition_consumer {after : State ι δ} (hstep : s.consumerStep = some after) :
    Transition s .consumer after := by
  cases hphase : s.phase with
  | idle => simp [State.consumerStep, hphase] at hstep
  | panicked panic => simp [State.consumerStep, hphase] at hstep
  | lookUp => exact transition_lookUp hphase hstep
  | receive => exact transition_receive hphase hstep
  | drain stop => exact transition_drain hphase hstep
  | finish stop =>
      simp only [State.consumerStep, hphase, Option.some.injEq] at hstep
      rw [← hstep]
      exact .finished stop hphase

theorem transition_callNext {after : State ι δ} (hstep : s.callNext = some after) :
    Transition s .next after := by
  unfold State.callNext at hstep
  split at hstep
  · rename_i hphase
    split at hstep
    · rename_i hend
      cases hstep
      exact .fastSyncEnded hphase hend
    · rename_i hend
      cases hstep
      exact .asked hphase hend
  · cases hstep

theorem transition_workStep {index : ℕ} {rpc : Rpc ι δ} {after : State ι δ}
    (hstep : s.workStep index rpc = some after) : Transition s (.worker index rpc) after := by
  unfold State.workStep at hstep
  cases hget : s.prefetcher.threadJoins[index]? with
  | none => simp [hget] at hstep
  | some w =>
      cases hwork : s.prefetcher.workerStep rpc w with
      | none => simp [hget, hwork] at hstep
      | some result =>
          simp only [hget, hwork, Option.bind_eq_bind, Option.bind_some, Option.some.injEq]
            at hstep
          rw [← hstep]
          exact .worked index rpc w result.1 result.2 hget hwork

theorem step_worker_none {index : ℕ} (rpc : Rpc ι δ)
    (hget : s.prefetcher.threadJoins[index]? = none) : s.step (.worker index rpc) = s := by
  simp [State.step, State.step?, State.workStep, hget]

theorem step_worker_waiting {index : ℕ} {rpc : Rpc ι δ} {w : Worker ι δ}
    (hget : s.prefetcher.threadJoins[index]? = some w)
    (hstep : s.prefetcher.workerStep rpc w = none) : s.step (.worker index rpc) = s := by
  simp [State.step, State.step?, State.workStep, hget, hstep]

theorem step_worker {index : ℕ} {rpc : Rpc ι δ} {w w' : Worker ι δ} {p : Prefetcher ι δ}
    (hget : s.prefetcher.threadJoins[index]? = some w)
    (hstep : s.prefetcher.workerStep rpc w = some (w', p)) : s.step (.worker index rpc) =
      { s with prefetcher := { p with threadJoins := p.threadJoins.set index w' } } := by
  simp [State.step, State.step?, State.workStep, hget, hstep]

theorem transition_step (s : State ι δ) (event : Event ι δ) :
    Transition s event (s.step event) := by
  unfold State.step
  cases hstep : s.step? event with
  | none => exact .stay event hstep
  | some after =>
      cases event with
      | next => exact transition_callNext hstep
      | consumer => exact transition_consumer hstep
      | worker index rpc => exact transition_workStep hstep

end BitcoinIndexer.Node
