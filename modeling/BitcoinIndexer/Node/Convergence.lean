import Mathlib.Data.Prod.Lex
import BitcoinIndexer.Core.FairRuns
import BitcoinIndexer.Node.Progress

/-!
# Convergence to the chain of the node

The node serves one chain.  From a fresh start of the workers the iterator goes down,
one reset a height, to the first height above the last recorded block of that chain, and
yields the chain from there on, whatever the order in which the workers deliver.
-/

namespace BitcoinIndexer.Node

open BitcoinIndexer.ReferenceChain
open BitcoinIndexer.OrderedMap
open BitcoinIndexer.FairRuns

variable {ι δ : Type}

/-- New workers, and nothing on its way. -/
def JustStarted (s : State ι δ) : Prop :=
  s.prefetcher = s.prefetcher.restarted s.prefetcher.threadNum s.prefetcher.curHeight ∧
    (s.phase = .idle ∨ s.phase = .lookUp)

/-- `fork` is one above the greatest height below the one waited for at which the recorded
hash is that of the chain; it is 0 when the hashes are recorded from 0 on and none is. -/
structure ForkAt (blocks : List (RpcBlockWithPrevId ι δ)) (hashes : BTreeMap ℕ ι)
    (curHeight fork : ℕ) : Prop where
  le : fork ≤ curHeight
  agrees : 0 < fork → ∃ item, blocks[fork - 1]? = some item ∧
    hashes.get (fork - 1) = some item.block.id
  differs : ∀ height item, fork ≤ height → height < curHeight → blocks[height]? = some item →
    hashes.get height ≠ some item.block.id
  recorded : fork = 0 → ∀ height, height < curHeight → hashes.get height ≠ none

/-- A reset is complete when `next` looks for a block again. -/
def completesReset (before after : State ι δ) : Bool :=
  match before.phase, after.phase with
  | .drain .reorg, .lookUp => true
  | _, _ => false

variable {blocks : List (RpcBlockWithPrevId ι δ)} {s : State ι δ}

theorem completesReset_eq_false {before after : State ι δ}
    (h : before.phase.resets = false ∨ after.phase = before.phase) :
    completesReset before after = false := by
  unfold completesReset
  split
  · simp_all [Phase.resets]
  · rfl

theorem completesReset_of_drain {before : State ι δ} {p : Prefetcher ι δ} {stop : Stop}
    {yielded : List (RpcBlockWithPrevId ι δ)} :
    completesReset before ⟨p, .drain stop, yielded⟩ = false := by
  unfold completesReset
  split <;> simp_all

theorem Offered.not_resets {item : RpcBlockWithPrevId ι δ} {p : Prefetcher ι δ}
    (h : Offered s item p) : s.phase.resets = false := by
  cases h with
  | buffered item hphase => rw [hphase]; rfl
  | received channel item items hphase => rw [hphase]; rfl

/-! ## What is found at each height -/

/-- The block at `height` of the chain links to what is recorded. -/
def Agrees (blocks : List (RpcBlockWithPrevId ι δ)) (hashes : BTreeMap ℕ ι) (height : ℕ) : Prop :=
  0 < height → ∃ below, blocks[height - 1]? = some below ∧
    hashes.get (height - 1) = some below.block.id

/-- It does not, and something is recorded. -/
def Differs (blocks : List (RpcBlockWithPrevId ι δ)) (hashes : BTreeMap ℕ ι) (height : ℕ) : Prop :=
  0 < height ∧ ∃ below id, blocks[height - 1]? = some below ∧
    hashes.get (height - 1) = some id ∧ id ≠ below.block.id

section

variable [DecidableEq ι] {start : Option (WithHeightAndId ι Unit)}

theorem Sound.get_eq_none_of_error (h : Sound start s) {item : RpcBlockWithPrevId ι δ}
    {p : Prefetcher ι δ} {panic : Panic ι} (hoffered : Offered s item p)
    (herror : p.trackReorgs item = .error panic) :
    0 < s.prefetcher.curHeight ∧
      s.prefetcher.prevHashes.get (s.prefetcher.curHeight - 1) = none := by
  obtain ⟨hcur, hprevHashes⟩ := hoffered.frame
  have hheight := h.offered_height hoffered
  have hdeep := h.windowed.trackReorgs_eq_error hoffered hheight herror
  obtain ⟨rfl, -⟩ | ⟨hpos, hnone, -⟩ :=
    Prefetcher.trackReorgs_eq_error (hheight.trans hcur.symm) herror
  · obtain hfalse | ⟨_, hfalse⟩ := hdeep <;> cases hfalse
  · rw [hcur] at hpos hnone
    rw [hprevHashes] at hnone
    exact ⟨hpos, hnone⟩

theorem Agrees.yields (h : Agrees blocks s.prefetcher.prevHashes s.prefetcher.curHeight)
    (hextends : Extends [] blocks) (hsound : Sound start s) {item : RpcBlockWithPrevId ι δ}
    {p : Prefetcher ι δ} (hmem : item ∈ blocks) (hoffered : Offered s item p) :
    ∃ q, p.trackReorgs item = .ok (false, q) := by
  obtain ⟨hcur, hprevHashes⟩ := hoffered.frame
  have hheight := hsound.offered_height hoffered
  have hlinks : 0 < s.prefetcher.curHeight →
      s.prefetcher.prevHashes.get (s.prefetcher.curHeight - 1) = some item.prevBlockId := by
    intro hpos
    obtain ⟨below, hbelow, hget⟩ := h hpos
    rw [hget, prev_of_extends hextends hmem (by omega) hbelow]
  cases htrack : p.trackReorgs item with
  | error panic =>
      obtain ⟨hpos, hnone⟩ := hsound.get_eq_none_of_error hoffered htrack
      rw [hlinks hpos] at hnone
      cases hnone
  | ok result =>
      obtain ⟨reorg, q⟩ := result
      obtain ⟨-, ⟨rfl, -⟩ | ⟨-, -, hpos, stored, hstored, hne⟩⟩ :=
        Prefetcher.trackReorgs_eq_ok htrack
      · exact ⟨q, rfl⟩
      · rw [hcur] at hpos hstored
        rw [hprevHashes, hlinks hpos] at hstored
        exact absurd (Option.some.inj hstored).symm hne

theorem Differs.resets (h : Differs blocks s.prefetcher.prevHashes s.prefetcher.curHeight)
    (hextends : Extends [] blocks) (hsound : Sound start s) {item : RpcBlockWithPrevId ι δ}
    {p : Prefetcher ι δ} (hmem : item ∈ blocks) (hoffered : Offered s item p) :
    p.trackReorgs item = .ok (true, p) := by
  obtain ⟨hcur, hprevHashes⟩ := hoffered.frame
  have hheight := hsound.offered_height hoffered
  obtain ⟨hpos, below, id, hbelow, hget, hne⟩ := h
  have hparent := prev_of_extends hextends hmem (by omega) hbelow
  cases htrack : p.trackReorgs item with
  | error panic =>
      obtain ⟨-, hnone⟩ := hsound.get_eq_none_of_error hoffered htrack
      rw [hget] at hnone
      cases hnone
  | ok result =>
      obtain ⟨reorg, q⟩ := result
      obtain ⟨-, ⟨-, hprev, -⟩ | ⟨rfl, rfl, -⟩⟩ := Prefetcher.trackReorgs_eq_ok htrack
      · rw [hcur, hprevHashes] at hprev
        rw [hprev hpos, hparent, Option.some.injEq] at hget
        exact absurd hget.symm hne
      · rfl

end

/-! ## The way down and up -/

/-- From a state at height `top` with what was yielded and recorded there, after some
complete resets: on the way down nothing is yielded, and on the way up the chain is. -/
inductive Course (blocks : List (RpcBlockWithPrevId ι δ)) (old : List (RpcBlockWithPrevId ι δ))
    (hashes : BTreeMap ℕ ι) (top fork resets : ℕ) (s : State ι δ) : Prop where
  | descending (hyielded : s.yielded = old) (hhashes : s.prefetcher.prevHashes = hashes)
      (hfork : fork ≤ s.awaited) (hresets : resets + s.prefetcher.curHeight = top)
  | ascending (count : ℕ) (hpos : 0 < count)
      (hyielded : s.yielded = old ++ (blocks.drop fork).take count)
      (hcur : s.prefetcher.curHeight = fork + count)
      (hle : s.prefetcher.curHeight ≤ blocks.length) (hphase : s.phase.resets = false)
      (hagrees : Agrees blocks s.prefetcher.prevHashes s.prefetcher.curHeight)
      (hresets : resets + fork = top)

/-- What is known where the way down begins. -/
structure Descent (blocks : List (RpcBlockWithPrevId ι δ)) (hashes : BTreeMap ℕ ι)
    (top fork : ℕ) : Prop where
  chain : Extends [] blocks
  top_lt : top < blocks.length
  le : fork ≤ top
  agrees : Agrees blocks hashes fork
  differs : ∀ height, fork < height → height ≤ top → Differs blocks hashes height

variable {old : List (RpcBlockWithPrevId ι δ)} {hashes : BTreeMap ℕ ι} {top fork resets : ℕ}

namespace Course

theorem quiet (h : Course blocks old hashes top fork resets s) {after : State ι δ}
    (hyielded : after.yielded = s.yielded)
    (hprev : after.prefetcher.prevHashes = s.prefetcher.prevHashes)
    (hcur : after.prefetcher.curHeight = s.prefetcher.curHeight)
    (hphase : after.phase.resets = s.phase.resets) :
    Course blocks old hashes top fork resets after := by
  have hawaited : after.awaited = s.awaited := by
    rw [State.awaited, State.awaited, hphase, hcur]
  cases h with
  | descending hsame hhashes hfork hresets =>
      exact .descending (hyielded.trans hsame) (hprev.trans hhashes) (hawaited ▸ hfork)
        (by rw [hcur, hresets])
  | ascending count hpos hsame hheight hle hnot hagrees hresets =>
      refine .ascending count hpos (hyielded.trans hsame) (hcur.trans hheight) (hcur ▸ hle)
        (hphase.trans hnot) ?_ hresets
      rw [hprev, hcur]
      exact hagrees

theorem uncounted {before : State ι δ} (h : Course blocks old hashes top fork resets s)
    (hnot : completesReset before s = false) :
    Course blocks old hashes top fork (resets + if completesReset before s then 1 else 0) s := by
  rw [hnot]
  exact h

/-- Where a block is offered, it links at the fork and on the way up, and nowhere else. -/
theorem at_offer (h : Course blocks old hashes top fork resets s)
    (hdescent : Descent blocks hashes top fork) {item : RpcBlockWithPrevId ι δ}
    {p : Prefetcher ι δ} (hoffered : Offered s item p) :
    (Differs blocks s.prefetcher.prevHashes s.prefetcher.curHeight ∧
        s.yielded = old ∧ s.prefetcher.prevHashes = hashes ∧ fork < s.prefetcher.curHeight ∧
        resets + s.prefetcher.curHeight = top) ∨
      (Agrees blocks s.prefetcher.prevHashes s.prefetcher.curHeight ∧
        ∃ count, s.yielded = old ++ (blocks.drop fork).take count ∧
          s.prefetcher.curHeight = fork + count ∧ resets + fork = top) := by
  cases h with
  | descending hyielded hhashes hfork hresets =>
      rw [hoffered.awaited] at hfork
      obtain heq | hlt := hfork.eq_or_lt
      · refine .inr ⟨?_, 0, by simp [hyielded], by omega, by omega⟩
        rw [hhashes, ← heq]
        exact hdescent.agrees
      · refine .inl ⟨?_, hyielded, hhashes, hlt, hresets⟩
        rw [hhashes]
        exact hdescent.differs _ hlt (by omega)
  | ascending count hpos hyielded hcur hle hphase hagrees hresets =>
      exact .inr ⟨hagrees, count, hyielded, hcur, hresets⟩

end Course

/-- All that holds in the states of such a run. -/
structure Converging (start : Option (WithHeightAndId ι Unit))
    (blocks old : List (RpcBlockWithPrevId ι δ)) (hashes : BTreeMap ℕ ι)
    (top fork resets : ℕ) (s : State ι δ) : Prop where
  sound : Sound start s
  supplied : Supplied blocks s
  course : Course blocks old hashes top fork resets s
  alive : ∀ panic, s.phase ≠ .panicked panic

/-- While the workers are needed, they live. -/
theorem Supplied.not_ended (h : Supplied blocks s)
    (hgoing : s.prefetcher.workersFinish = false) {w : Worker ι δ}
    (hmem : w ∈ s.prefetcher.threadJoins) : w.ended = false := by
  obtain ⟨g, hpartition⟩ := h.partition
  have horderly := hpartition.orderly w hmem
  have hpresent := hpartition.present hgoing w hmem
  unfold Worker.ended
  unfold Worker.Orderly at horderly
  split <;> simp_all

theorem Supplied.not_all_ended (h : Supplied blocks s)
    (hgoing : s.prefetcher.workersFinish = false) :
    s.prefetcher.threadJoins.all Worker.ended = false := by
  have hpos : 0 < s.prefetcher.threadJoins.length := h.crew ▸ h.staffed
  rw [List.all_eq_false]
  exact ⟨_, List.getElem_mem hpos, by simp [h.not_ended hgoing (List.getElem_mem hpos)]⟩

namespace Converging

variable [DecidableEq ι] {start : Option (WithHeightAndId ι Unit)}

theorem offer (h : Converging start blocks old hashes top fork resets s)
    (hdescent : Descent blocks hashes top fork) {item : RpcBlockWithPrevId ι δ}
    {p : Prefetcher ι δ} (hoffered : Offered s item p) :
    (p.trackReorgs item = .ok (true, p) ∧ s.yielded = old ∧
        s.prefetcher.prevHashes = hashes ∧ fork < s.prefetcher.curHeight ∧
        resets + s.prefetcher.curHeight = top) ∨
      ((∃ q, p.trackReorgs item = .ok (false, q)) ∧
        ∃ count, s.yielded = old ++ (blocks.drop fork).take count ∧
          s.prefetcher.curHeight = fork + count ∧ resets + fork = top) := by
  have hmem := h.supplied.offered_mem hoffered
  obtain ⟨hdiffers, hrest⟩ | ⟨hagrees, hrest⟩ := h.course.at_offer hdescent hoffered
  · exact .inl ⟨hdiffers.resets hdescent.chain h.sound hmem hoffered, hrest⟩
  · exact .inr ⟨hagrees.yields hdescent.chain h.sound hmem hoffered, hrest⟩

theorem course_yield (h : Converging start blocks old hashes top fork resets s)
    (hdescent : Descent blocks hashes top fork) {item : RpcBlockWithPrevId ι δ}
    {p q : Prefetcher ι δ} (hoffered : Offered s item p)
    (htrack : p.trackReorgs item = .ok (false, q)) :
    Course blocks old hashes top fork resets
      ⟨{ q with curHeight := q.curHeight + 1 }, .idle, s.yielded ++ [item]⟩ := by
  have hmem := h.supplied.offered_mem hoffered
  have hget := getElem?_of_extends hdescent.chain hmem
  have hcur := hoffered.frame.1
  obtain ⟨hoffer, -⟩ | ⟨-, count, hyielded, hheight, hresets⟩ := h.offer hdescent hoffered
  · rw [htrack] at hoffer
    cases hoffer
  obtain ⟨hitem, ⟨-, -, rfl, -⟩ | ⟨hfalse, -⟩⟩ := Prefetcher.trackReorgs_eq_ok htrack
  case inr => cases hfalse
  rw [hcur, hheight] at hitem
  rw [hitem] at hget
  obtain ⟨hlt, -⟩ := List.getElem?_eq_some_iff.1 hget
  refine .ascending (count + 1) (by omega) ?_ (by simp only [hcur]; omega)
    (by simp only [hcur]; omega) rfl ?_ hresets
  · have hdrop : (blocks.drop fork)[count]? = some item := by
      rw [List.getElem?_drop]
      exact hget
    simp only [hyielded, List.take_add_one, hdrop, Option.toList_some, List.append_assoc]
  · intro _
    simp only [Nat.add_sub_cancel, hcur, hheight]
    refine ⟨item, hget, ?_⟩
    have hself : (p.recorded item).get item.block.height = some item.block.id :=
      Prefetcher.get_recorded_self (by omega)
    rw [hitem] at hself
    exact hself

theorem alive_step (h : Converging start blocks old hashes top fork resets s)
    (hdescent : Descent blocks hashes top fork) {event : Event ι δ} {after : State ι δ}
    (htransition : Transition s event after) (panic : Panic ι) : after.phase ≠ .panicked panic := by
  obtain ⟨g, hpartition⟩ := h.supplied.partition
  cases htransition with
  | stay | worked | putAside | drained => exact h.alive panic
  | trackPanicked item p panic hoffered htrack =>
      obtain ⟨hoffer, -⟩ | ⟨⟨q, hoffer⟩, -⟩ := h.offer hdescent hoffered <;> rw [htrack] at hoffer <;>
        cases hoffer
  | belowCurrent channel item items hphase hrx hitems hheight =>
      have hmem : item ∈ s.prefetcher.channelItems := by
        simp [Prefetcher.channelItems_of_rx hrx hitems]
      have hahead := hpartition.ahead (Partition.channel_underWay hmem)
      omega
  | disconnected channel hphase hrx hitems hended =>
      have hgoing := hpartition.told (by rw [hphase]; rfl) (by simp [hphase])
      rw [h.supplied.not_all_ended hgoing] at hended
      cases hended
  | rxMissing panic hrx => exact absurd hrx hpartition.rx
  | resetAtZero channel hphase hrx hitems hzero =>
      obtain ⟨hpos, -⟩ := h.sound.windowed.reset (by rw [hphase]; rfl)
      omega
  | _ => simp

theorem step (h : Converging start blocks old hashes top fork resets s)
    (hdescent : Descent blocks hashes top fork) (event : Event ι δ)
    (hserves : event.answers (Serves blocks)) :
    Converging start blocks old hashes top fork
      (resets + if completesReset s (s.step event) then 1 else 0) (s.step event) := by
  have htransition := transition_step s event
  have halive := h.alive_step hdescent htransition
  refine ⟨h.sound.step event, h.supplied.step hdescent.chain event hserves, ?_, halive⟩
  generalize s.step event = after at htransition halive
  cases htransition with
  | stay => exact h.course.uncounted (completesReset_eq_false (.inr rfl))
  | worked index rpc w w' p hget hstep =>
      obtain ⟨nextHeight, rx, rfl⟩ := (Prefetcher.worked_of_workerStep hstep).frame
      exact Course.uncounted (h.course.quiet rfl rfl rfl rfl) (completesReset_eq_false (.inr rfl))
  | fastSyncEnded hphase | asked hphase | notBuffered hphase =>
      have hresets : s.phase.resets = false := by rw [hphase]; rfl
      exact Course.uncounted (h.course.quiet rfl rfl rfl hresets.symm)
        (completesReset_eq_false (.inl hresets))
  | fastSyncRestart channel hphase hrx hitems hended =>
      have hresets : s.phase.resets = false := by rw [hphase]; rfl
      have hsame : Course blocks old hashes top fork resets { s with
          prefetcher := s.prefetcher.restarted 1 s.prefetcher.curHeight, phase := .lookUp } :=
        h.course.quiet rfl rfl rfl hresets.symm
      exact hsame.uncounted (completesReset_eq_false (.inl hresets))
  | yielded item p q hoffered htrack =>
      exact (h.course_yield hdescent hoffered htrack).uncounted
        (completesReset_eq_false (.inl hoffered.not_resets))
  | reorgFound item p hoffered htrack =>
      obtain ⟨hcur, hprevHashes⟩ := hoffered.frame
      obtain ⟨-, hyielded, hhashes, hlt, hresets⟩ | ⟨⟨q, hoffer⟩, -⟩ := h.offer hdescent hoffered
      · apply Course.uncounted _ (completesReset_eq_false (.inl hoffered.not_resets))
        refine .descending hyielded (hprevHashes.trans hhashes) ?_ (by simpa [hcur] using hresets)
        change fork ≤ p.curHeight - 1
        omega
      · rw [htrack] at hoffer
        cases hoffer
  | putAside channel item items hphase hrx hitems hheight =>
      exact Course.uncounted (h.course.quiet rfl rfl rfl rfl) (completesReset_eq_false (.inr rfl))
  | drained stop channel item items hphase hrx hitems =>
      exact Course.uncounted (h.course.quiet rfl rfl rfl rfl) (completesReset_eq_false (.inr rfl))
  | finished stop hphase =>
      have hresets : (Phase.drain stop : Phase ι).resets = s.phase.resets := by
        rw [hphase]
        cases stop <;> rfl
      exact Course.uncounted (h.course.quiet rfl rfl rfl hresets) completesReset_of_drain
  | reorgRestart channel hphase hrx hitems hended hpos =>
      have hcompletes : completesReset s { s with
          prefetcher := s.prefetcher.restarted s.prefetcher.threadNum (s.prefetcher.curHeight - 1)
          phase := .lookUp } = true := by
        simp [completesReset, hphase]
      have hawaited : s.awaited = s.prefetcher.curHeight - 1 := by
        simp [State.awaited, hphase, Phase.resets]
      cases h.course with
      | descending hyielded hhashes hfork hresets =>
          rw [hcompletes]
          refine .descending hyielded hhashes (hawaited ▸ hfork) ?_
          change resets + 1 + (s.prefetcher.curHeight - 1) = top
          omega
      | ascending count _ _ _ _ hnot =>
          rw [hphase] at hnot
          cases hnot
  | trackPanicked | belowCurrent | disconnected | rxMissing | resetAtZero =>
      exact absurd rfl (halive _)

end Converging

end BitcoinIndexer.Node
