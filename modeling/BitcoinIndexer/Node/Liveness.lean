import Mathlib.Data.Nat.Pairing
import BitcoinIndexer.Node.Convergence

/-!
# The chain of the node arrives

Every thread goes on taking steps and the node stops answering with errors.  In every
state one thread brings the iterator nearer to the next block of the chain, and the
others do not take it back; so all of the chain is yielded.
-/

namespace BitcoinIndexer.Node

open BitcoinIndexer.ReferenceChain
open BitcoinIndexer.OrderedMap
open BitcoinIndexer.FairRuns

variable {ι δ : Type}

/-- Who takes a step. -/
inductive Thread where
  | caller
  | iterator
  | worker (index : ℕ)
  deriving DecidableEq

def Event.thread : Event ι δ → Thread
  | .next => .caller
  | .consumer => .iterator
  | .worker index _ => .worker index

/-- The caller, the iterator and the workers there are. -/
def State.Lives (s : State ι δ) : Thread → Prop
  | .caller | .iterator => True
  | .worker index => index < s.prefetcher.threadJoins.length

/-- A worker of the state is answered with an error. -/
def State.GetsError (s : State ι δ) : Event ι δ → Prop
  | .worker index rpc => ∃ w, s.prefetcher.threadJoins[index]? = some w ∧ w.GetsError rpc
  | .next | .consumer => False

/-- The steps of the iterator and its caller until the height waited for changes. -/
def Phase.left : Phase ι → ℕ
  | .idle => 5
  | .finish _ => 4
  | .drain _ => 3
  | .lookUp => 2
  | .receive => 1
  | .panicked _ => 0

/-- Whose step brings the next block nearer. -/
def Helps (top : ℕ) (s : State ι δ) : Thread → Prop
  | .caller => s.phase = .idle
  | .iterator =>
      match s.phase with
      | .lookUp | .finish _ => True
      | .receive => s.prefetcher.channelItems ≠ []
      | .drain _ => s.prefetcher.channelItems ≠ [] ∨
          s.prefetcher.threadJoins.all Worker.ended = true
      | .idle | .panicked _ => False
  | .worker index => ∃ w, s.prefetcher.threadJoins[index]? = some w ∧
      s.prefetcher.channelItems = [] ∧
        match s.phase with
        | .receive => ¬ w.Polls top
        | .drain _ => w.ended = false
        | _ => False

/-- The blocks to yield and the heights to go down, each worth more than a call of `next`. -/
def blockRank (total before fork : ℕ) (s : State ι δ) : ℕ :=
  8 * ((total - s.yielded.length) +
      if s.yielded.length = before then s.awaited - fork else 0) + s.phase.left

/-- What is left for the workers to do before the iterator goes on. -/
def workRank (top : ℕ) (s : State ι δ) : ℕ :=
  match s.phase with
  | .receive => s.prefetcher.fetchRank top
  | .drain _ => s.prefetcher.stopRank
  | _ => 0

def rank (top total before fork : ℕ) (s : State ι δ) : ℕ ×ₗ ℕ :=
  toLex (blockRank total before fork s, workRank top s)

section Rank

variable {top total before fork : ℕ} {s after : State ι δ}

theorem rank_lt_of_blockRank (hlt : blockRank total before fork after < blockRank total before fork s) :
    rank top total before fork after < rank top total before fork s :=
  Prod.Lex.toLex_lt_toLex.2 (.inl hlt)

theorem rank_lt_of_workRank
    (heq : blockRank total before fork after = blockRank total before fork s)
    (hlt : workRank top after < workRank top s) :
    rank top total before fork after < rank top total before fork s :=
  Prod.Lex.toLex_lt_toLex.2 (.inr ⟨heq, hlt⟩)

/-- The phase goes on with the same block to yield. -/
theorem blockRank_lt_of_left (hyielded : after.yielded = s.yielded)
    (hawaited : after.awaited = s.awaited) (hlt : after.phase.left < s.phase.left) :
    blockRank total before fork after < blockRank total before fork s := by
  unfold blockRank
  rw [hyielded, hawaited]
  omega

theorem blockRank_eq (hyielded : after.yielded = s.yielded) (hawaited : after.awaited = s.awaited)
    (hphase : after.phase = s.phase) :
    blockRank total before fork after = blockRank total before fork s := by
  unfold blockRank
  rw [hyielded, hawaited, hphase]

end Rank

/-! ## Someone helps -/

variable {blocks old : List (RpcBlockWithPrevId ι δ)} {hashes : BTreeMap ℕ ι}
variable {top fork resets : ℕ} {s : State ι δ}

theorem Worker.Polls.held {w : Worker ι δ} (h : w.Polls top) :
    ∃ height, w.held = some height ∧ top ≤ height := by
  unfold Worker.Polls at h
  unfold Worker.held
  split at h
  · exact ⟨_, by simp [*], h⟩
  · exact ⟨_, by simp [*], h⟩
  · exact ⟨_, by simp [*], h⟩
  · exact h.elim

/-- Where the iterator waits for a height of the chain and nothing is in the channel, a
worker is at work on it. -/
theorem Supplied.exists_busy (h : Supplied blocks s) (hphase : s.phase = .receive)
    (hempty : s.prefetcher.channelItems = []) (hcur : s.prefetcher.curHeight < top) :
    ∃ (index : ℕ) (w : Worker ι δ),
      s.prefetcher.threadJoins[index]? = some w ∧ ¬ w.Polls top := by
  obtain ⟨g, hpartition⟩ := h.partition
  have hserves : s.phase.serves = true := by rw [hphase]; rfl
  obtain hunderWay | hnext := hpartition.not_lost hserves
  · have haside : s.prefetcher.curHeight ∉ s.prefetcher.outOfOrderItems.keys := by
      rw [← BTreeMap.get_eq_none_iff]
      exact h.receiving hphase
    have hheld : s.prefetcher.curHeight ∈ s.prefetcher.threadJoins.filterMap Worker.held := by
      simpa [Prefetcher.underWay, Prefetcher.inChannel, Prefetcher.putAside, Prefetcher.held,
        hempty, haside] using hunderWay
    obtain ⟨w, hmem, hw⟩ := List.mem_filterMap.1 hheld
    obtain ⟨index, hget⟩ := List.mem_iff_getElem?.1 hmem
    refine ⟨index, w, hget, fun hpolls => ?_⟩
    obtain ⟨height, hheight, hle⟩ := hpolls.held
    rw [hw, Option.some.injEq] at hheight
    omega
  · -- nothing is claimed: whoever is there has no height to poll for
    have hpos : 0 < s.prefetcher.threadJoins.length := h.crew ▸ h.staffed
    refine ⟨0, _, List.getElem?_eq_getElem hpos, fun hpolls => ?_⟩
    obtain ⟨height, hheight, hle⟩ := hpolls.held
    have hheld : height ∈ s.prefetcher.underWay := by
      refine Multiset.mem_add.2 (.inl (Multiset.mem_add.2 (.inl ?_)))
      exact Multiset.mem_coe.2 (List.mem_filterMap.2 ⟨_, List.getElem_mem hpos, hheight⟩)
    have hahead := hpartition.ahead hheld
    omega

theorem Supplied.someone (h : Supplied blocks s) (halive : ∀ panic, s.phase ≠ .panicked panic)
    (hcur : s.prefetcher.curHeight < top) : ∃ t, Helps top s t := by
  cases hphase : s.phase with
  | idle => exact ⟨.caller, hphase⟩
  | lookUp => exact ⟨.iterator, by simp [Helps, hphase]⟩
  | finish stop => exact ⟨.iterator, by simp [Helps, hphase]⟩
  | panicked panic => exact absurd hphase (halive panic)
  | receive =>
      by_cases hempty : s.prefetcher.channelItems = []
      · obtain ⟨index, w, hget, hpolls⟩ := h.exists_busy hphase hempty hcur
        exact ⟨.worker index, w, hget, hempty, by simpa [hphase] using hpolls⟩
      · exact ⟨.iterator, by simpa [Helps, hphase] using hempty⟩
  | drain stop =>
      by_cases hempty : s.prefetcher.channelItems = []
      · by_cases hended : s.prefetcher.threadJoins.all Worker.ended = true
        · exact ⟨.iterator, by simpa [Helps, hphase] using .inr (by simpa using hended)⟩
        · rw [Bool.not_eq_true, List.all_eq_false] at hended
          obtain ⟨w, hmem, hw⟩ := hended
          obtain ⟨index, hget⟩ := List.mem_iff_getElem?.1 hmem
          exact ⟨.worker index, w, hget, hempty, by simpa [hphase] using hw⟩
      · exact ⟨.iterator, by simpa [Helps, hphase] using .inl hempty⟩

namespace Converging

variable {start : Option (WithHeightAndId ι Unit)}

/-- While blocks are missing the height waited for is one of the chain. -/
theorem curHeight_lt (h : Converging start blocks old hashes top fork resets s)
    (hdescent : Descent blocks hashes top fork)
    (hmissing : s.yielded.length < old.length + (blocks.length - fork)) :
    s.prefetcher.curHeight < blocks.length := by
  cases h.course with
  | descending hyielded hhashes hfork hresets =>
      have htop := hdescent.top_lt
      omega
  | ascending count hpos hyielded hcur hle hphase hagrees hresets =>
      simp only [hyielded, List.length_append, List.length_take, List.length_drop] at hmissing
      omega

theorem length_yielded (h : Converging start blocks old hashes top fork resets s) :
    old.length ≤ s.yielded.length := by
  cases h.course with
  | descending hyielded => rw [hyielded]
  | ascending count hpos hyielded => simp [hyielded]

end Converging

/-! ## The rank -/

/-- A step of a worker brings the rank down, or it is of one that does not help and
leaves the others as they are. -/
theorem Supplied.rank_worked (h : Supplied blocks s) {total before : ℕ} {index : ℕ}
    {rpc : Rpc ι δ} {w w' : Worker ι δ} {p : Prefetcher ι δ} (hserves : Serves blocks rpc)
    (hanswered : ¬ w.GetsError rpc) (hget : s.prefetcher.threadJoins[index]? = some w)
    (hworked : Prefetcher.Worked s.prefetcher rpc w w' p) :
    let after : State ι δ :=
      { s with prefetcher := { p with threadJoins := p.threadJoins.set index w' } }
    rank blocks.length total before fork after < rank blocks.length total before fork s ∨
      rank blocks.length total before fork after = rank blocks.length total before fork s ∧
        ¬ Helps blocks.length s (.worker index) ∧
        ∀ t, t ≠ .worker index → Helps blocks.length s t → Helps blocks.length after t := by
  intro after
  obtain ⟨g, hpartition⟩ := h.partition
  have hmem := List.mem_of_getElem? hget
  have horderly := (hpartition.orderly w hmem).step hpartition.rx hworked
  have hblock : blockRank total before fork after = blockRank total before fork s := by
    obtain ⟨nextHeight, rx, hframe⟩ := hworked.frame
    refine blockRank_eq rfl ?_ rfl
    simp only [State.awaited, after, hframe]
  cases hphase : s.phase with
  | receive =>
      have hgoing := hpartition.told (by rw [hphase]; rfl) (by simp [hphase])
      obtain hlt | ⟨hpolls, rfl, heq⟩ :=
        hworked.fetchRank_le hget hserves hanswered (h.workers w hmem) horderly hgoing
      · left
        exact rank_lt_of_workRank hblock (by simpa [workRank, hphase, after] using hlt)
      · refine .inr ⟨?_, ?_, ?_⟩
        · unfold rank
          rw [hblock]
          simpa [workRank, hphase, after] using heq
        · rintro ⟨other, hother, -, hwork⟩
          rw [hget, Option.some.injEq] at hother
          simp only [hphase] at hwork
          exact hwork (hother ▸ hpolls)
        · intro t hne hhelps
          cases t with
          | caller => exact hhelps
          | iterator =>
              simp only [Helps, hphase] at hhelps
              simp only [Helps, after, hphase]
              exact hhelps
          | worker other =>
              obtain ⟨w₁, hw₁, hempty, hwork⟩ := hhelps
              refine ⟨w₁, ?_, hempty, hwork⟩
              rw [← hw₁]
              exact List.getElem?_set_ne (fun heq => hne (by rw [heq]))
  | drain stop =>
      left
      have hlt := hworked.stopRank_lt hget (h.stopping (by rw [hphase]; rfl))
      exact rank_lt_of_workRank hblock (by simpa [workRank, hphase, after] using hlt)
  | idle | lookUp | finish | panicked =>
      refine .inr ⟨?_, by simp [Helps, hphase], fun t _ hhelps => ?_⟩
      · unfold rank
        rw [hblock]
        simp [workRank, hphase, after]
      · cases t <;> simp_all [Helps, after]

/-! ## Whoever helps can take its step -/

section Steps

variable [DecidableEq ι]

theorem Supplied.step?_ne_none (h : Supplied blocks s) {event : Event ι δ}
    (hhelps : Helps top s event.thread) : s.step? event ≠ none := by
  obtain ⟨g, hpartition⟩ := h.partition
  cases event with
  | next =>
      have hphase : s.phase = .idle := hhelps
      simp only [State.step?, State.callNext, hphase]
      split <;> simp
  | consumer =>
      obtain ⟨channel, hrx⟩ := Option.ne_none_iff_exists'.1 hpartition.rx
      simp only [Helps, Event.thread, Prefetcher.channelItems, hrx] at hhelps
      cases hphase : s.phase <;> simp only [hphase] at hhelps <;>
        cases hitems : channel.items <;>
          simp_all [State.step?, State.consumerStep]
      all_goals split <;> simp
  | worker index rpc =>
      obtain ⟨w, hget, hempty, hwork⟩ := hhelps
      have hended : w.ended = false := by
        cases hphase : s.phase <;> simp only [hphase] at hwork
        · have hgoing := hpartition.told (by rw [hphase]; rfl) (by simp [hphase])
          exact h.not_ended hgoing (List.mem_of_getElem? hget)
        · exact hwork
      have hroom : ∀ channel, s.prefetcher.rx = some channel →
          channel.items.length < channel.capacity := by
        intro channel hrx
        rw [Prefetcher.channelItems_of_rx hrx rfl] at hempty
        rw [hempty]
        exact h.room channel hrx
      obtain ⟨w', q, hstep⟩ := Prefetcher.exists_workerStep rpc hended hroom
      simp [State.step?, State.workStep, hget, hstep]

namespace Converging

variable {start : Option (WithHeightAndId ι Unit)}

/-- A step of the caller or the iterator brings the rank down. -/
theorem rank_lt (h : Converging start blocks old hashes top fork resets s)
    (hdescent : Descent blocks hashes top fork)
    (hmissing : s.yielded.length < old.length + (blocks.length - fork)) {event : Event ι δ}
    {after : State ι δ} (htransition : Transition s event after)
    (hsteps : s.step? event ≠ none) (hiterates : ∀ index rpc, event ≠ .worker index rpc) :
    rank blocks.length (old.length + (blocks.length - fork)) old.length fork after <
      rank blocks.length (old.length + (blocks.length - fork)) old.length fork s := by
  have hyields := h.length_yielded
  have halive := h.alive_step hdescent htransition
  cases htransition with
  | stay event hwaits => exact absurd hwaits hsteps
  | worked index rpc => exact absurd rfl (hiterates index rpc)
  | fastSyncEnded hphase =>
      apply rank_lt_of_blockRank
      exact blockRank_lt_of_left rfl (by simp [State.awaited, Phase.resets, hphase])
        (by simp [Phase.left, hphase])
  | asked hphase =>
      apply rank_lt_of_blockRank
      exact blockRank_lt_of_left rfl (by simp [State.awaited, Phase.resets, hphase])
        (by simp [Phase.left, hphase])
  | notBuffered hphase =>
      apply rank_lt_of_blockRank
      exact blockRank_lt_of_left rfl (by simp [State.awaited, Phase.resets, hphase])
        (by simp [Phase.left, hphase])
  | finished stop hphase =>
      apply rank_lt_of_blockRank
      refine blockRank_lt_of_left rfl ?_ (by simp [Phase.left, hphase])
      cases stop <;> simp [State.awaited, Phase.resets, hphase]
  | fastSyncRestart channel hphase =>
      apply rank_lt_of_blockRank
      exact blockRank_lt_of_left rfl
        (by simp [State.awaited, Phase.resets, hphase, Prefetcher.restarted])
        (by simp [Phase.left, hphase])
  | reorgRestart channel hphase =>
      apply rank_lt_of_blockRank
      exact blockRank_lt_of_left rfl
        (by simp [State.awaited, Phase.resets, hphase, Prefetcher.restarted])
        (by simp [Phase.left, hphase])
  | yielded item p q hoffered htrack =>
      apply rank_lt_of_blockRank
      have hleft : 0 < s.phase.left := by
        cases hoffered with
        | buffered item hphase => simp [Phase.left, hphase]
        | received channel item items hphase => simp [Phase.left, hphase]
      have hnew : s.yielded.length + 1 ≠ old.length := by omega
      simp only [blockRank, List.length_append, List.length_singleton, hnew, if_false, Phase.left]
      omega
  | reorgFound item p hoffered htrack =>
      apply rank_lt_of_blockRank
      obtain ⟨-, hyielded, -, hlt, -⟩ | ⟨⟨q, hoffer⟩, -⟩ := h.offer hdescent hoffered
      · have hcur := hoffered.frame.1
        have hleft : 0 < s.phase.left := by
          cases hoffered with
          | buffered item hphase => simp [Phase.left, hphase]
          | received channel item items hphase => simp [Phase.left, hphase]
        have hawaited : s.awaited = s.prefetcher.curHeight := hoffered.awaited
        have hbelow : State.awaited (⟨p, .finish .reorg, old⟩ : State ι δ) =
            s.prefetcher.curHeight - 1 := by
          rw [← hcur]
          rfl
        simp only [blockRank, hawaited, hyielded, hbelow, if_true]
        change _ + 4 < _ + s.phase.left
        omega
      · rw [htrack] at hoffer
        cases hoffer
  | putAside channel item items hphase hrx hitems hheight =>
      refine rank_lt_of_workRank (blockRank_eq rfl rfl rfl) ?_
      simp only [workRank, hphase, Prefetcher.fetchRank, Prefetcher.channelItems, hrx, hitems,
        List.length_cons]
      omega
  | drained stop channel item items hphase hrx hitems =>
      refine rank_lt_of_workRank (blockRank_eq rfl rfl rfl) ?_
      simp only [workRank, hphase, Prefetcher.stopRank, Prefetcher.channelItems, hrx, hitems,
        List.length_cons]
      omega
  | trackPanicked | belowCurrent | disconnected | rxMissing | resetAtZero =>
      exact absurd rfl (halive _)

/-- Whatever is done: the rank falls, or nothing is taken back and no help was lost. -/
theorem rank_step (h : Converging start blocks old hashes top fork resets s)
    (hdescent : Descent blocks hashes top fork)
    (hmissing : s.yielded.length < old.length + (blocks.length - fork)) {event : Event ι δ}
    (hserves : event.answers (Serves blocks)) (hanswered : ¬ s.GetsError event)
    (hsteps : s.step? event ≠ none) :
    let ranked := rank (ι := ι) (δ := δ) blocks.length (old.length + (blocks.length - fork))
      old.length fork
    ranked (s.step event) < ranked s ∨
      ranked (s.step event) = ranked s ∧ ¬ Helps blocks.length s event.thread ∧
        ∀ t, t ≠ event.thread → Helps blocks.length s t → Helps blocks.length (s.step event) t := by
  intro ranked
  have htransition := transition_step s event
  cases event with
  | next => exact .inl (h.rank_lt hdescent hmissing htransition hsteps (by simp))
  | consumer => exact .inl (h.rank_lt hdescent hmissing htransition hsteps (by simp))
  | worker index rpc =>
      generalize s.step (.worker index rpc) = stepped at htransition
      cases htransition with
      | stay event hwaits => exact absurd hwaits hsteps
      | worked index rpc w w' p hget hstep =>
          exact h.supplied.rank_worked hserves (fun herror => hanswered ⟨w, hget, herror⟩) hget
            (Prefetcher.worked_of_workerStep hstep)

end Converging

/-- With the chain served, the blocks above the fork are all yielded in the end. -/
def arrival {start : Option (WithHeightAndId ι Unit)} (hdescent : Descent blocks hashes top fork) :
    Progress State.step Event.thread State.Lives
      (fun s event => event.answers (Serves blocks) ∧ ¬ s.GetsError event)
      (fun s : State ι δ => ∃ resets, Converging start blocks old hashes top fork resets s)
      (fun s => old.length + (blocks.length - fork) ≤ s.yielded.length) (ℕ ×ₗ ℕ) where
  rank := rank blocks.length (old.length + (blocks.length - fork)) old.length fork
  helps := Helps blocks.length
  someone := by
    intro s ⟨resets, h⟩ hmissing
    exact h.supplied.someone h.alive (h.curHeight_lt hdescent (by omega))
  living := by
    intro s t _ _ hhelps
    cases t with
    | caller | iterator => exact trivial
    | worker index =>
        obtain ⟨w, hget, -⟩ := hhelps
        exact (List.getElem?_eq_some_iff.1 hget).1
  kept := by
    intro s event ⟨resets, h⟩ _ hadmitted
    exact ⟨_, h.step hdescent event hadmitted.1⟩
  steady := by
    intro s event ⟨resets, h⟩ hmissing hadmitted
    cases hsteps : s.step? event with
    | none =>
        have hstay : s.step event = s := by rw [State.step, hsteps]; rfl
        rw [hstay]
        exact .inr ⟨rfl, fun _ _ hhelps => hhelps⟩
    | some stepped =>
        obtain hlt | ⟨heq, -, hkept⟩ := h.rank_step hdescent (by omega) hadmitted.1 hadmitted.2
          (by simp [hsteps])
        · exact .inl hlt
        · exact .inr ⟨heq, hkept⟩
  falls := by
    intro s event ⟨resets, h⟩ hmissing hadmitted hhelps
    have hsteps := h.supplied.step?_ne_none hhelps
    obtain hlt | ⟨-, hnot, -⟩ :=
      h.rank_step hdescent (by omega) hadmitted.1 hadmitted.2 hsteps
    · exact hlt
    · exact absurd hhelps hnot

/-! ## Runs without end -/

/-- The resets completed up to `time`. -/
def resetsUntil (s : State ι δ) (events : ℕ → Event ι δ) : ℕ → ℕ
  | 0 => 0
  | time + 1 => resetsUntil s events time +
      if completesReset (runTo State.step s events time) (runTo State.step s events (time + 1))
        then 1 else 0

variable {start : Option (WithHeightAndId ι Unit)}

theorem Converging.runTo (h : Converging start blocks old hashes top fork 0 s)
    (hdescent : Descent blocks hashes top fork) {events : ℕ → Event ι δ}
    (hserves : ∀ time, (events time).answers (Serves blocks)) (time : ℕ) :
    Converging start blocks old hashes top fork (resetsUntil s events time)
      (runTo State.step s events time) := by
  induction time with
  | zero => exact h
  | succ time ih => exact ih.step hdescent (events time) (hserves time)

/-- Blocks are yielded one by one. -/
theorem yielded_step (s : State ι δ) (event : Event ι δ) :
    (s.step event).yielded = s.yielded ∨
      ((s.step event).phase = .idle ∧ (s.step event).yielded.length = s.yielded.length + 1) := by
  have htransition := transition_step s event
  generalize s.step event = stepped at htransition
  cases htransition with
  | yielded item p q hoffered htrack => exact .inr ⟨rfl, by simp⟩
  | _ => exact .inl rfl

theorem exists_idle (events : ℕ → Event ι δ) {count time : ℕ} (hlt : s.yielded.length < count)
    (hle : count ≤ (runTo State.step s events time).yielded.length) :
    ∃ earlier, (runTo State.step s events earlier).phase = .idle ∧
      (runTo State.step s events earlier).yielded.length = count := by
  induction time with
  | zero => exact absurd hle (not_le.2 hlt)
  | succ time ih =>
      by_cases hbefore : count ≤ (runTo State.step s events time).yielded.length
      · exact ih hbefore
      obtain hsame | ⟨hphase, hlength⟩ :=
        yielded_step (runTo State.step s events time) (events time)
      · rw [FairRuns.runTo, hsame] at hle
        exact absurd hle hbefore
      · rw [FairRuns.runTo, hlength] at hle
        refine ⟨time + 1, hphase, ?_⟩
        rw [FairRuns.runTo, hlength]
        omega

end Steps

/-! ## Where the way down begins -/

theorem threadNum_step [DecidableEq ι] (hpos : 0 < s.prefetcher.threadNum) (event : Event ι δ) :
    0 < (s.step event).prefetcher.threadNum := by
  have htransition := transition_step s event
  generalize s.step event = stepped at htransition
  have htaken : ∀ {item : RpcBlockWithPrevId ι δ} {p : Prefetcher ι δ}, Offered s item p →
      0 < p.threadNum := by
    intro item p hoffered
    cases hoffered <;> exact hpos
  cases htransition with
  | worked index rpc w w' p hget hstep =>
      obtain ⟨nextHeight, rx, rfl⟩ := (Prefetcher.worked_of_workerStep hstep).frame
      exact hpos
  | yielded item p q hoffered htrack =>
      have hstaffed := htaken hoffered
      obtain ⟨-, ⟨-, -, rfl, -⟩ | ⟨hfalse, -⟩⟩ := Prefetcher.trackReorgs_eq_ok htrack
      · exact hstaffed
      · cases hfalse
  | reorgFound item p hoffered htrack => exact htaken hoffered
  | trackPanicked item p panic hoffered htrack => exact htaken hoffered
  | fastSyncRestart => exact Nat.one_pos
  | _ => exact hpos

theorem threadNum_run [DecidableEq ι] (hpos : 0 < s.prefetcher.threadNum)
    (events : List (Event ι δ)) : 0 < (s.run events).prefetcher.threadNum := by
  induction events generalizing s with
  | nil => exact hpos
  | cons event events ih => exact ih (threadNum_step hpos event)

theorem JustStarted.supplied (h : JustStarted s) (hpartition : ∃ g, Partition g s)
    (hpos : 0 < s.prefetcher.threadNum) : Supplied blocks s := by
  obtain ⟨hprefetcher, hphase⟩ := h
  have hjoins : s.prefetcher.threadJoins = List.replicate s.prefetcher.threadNum .new :=
    congrArg Prefetcher.threadJoins hprefetcher
  have hrx : s.prefetcher.rx = some ⟨s.prefetcher.threadNum * 64, []⟩ :=
    congrArg Prefetcher.rx hprefetcher
  have haside : s.prefetcher.outOfOrderItems = .empty :=
    congrArg Prefetcher.outOfOrderItems hprefetcher
  constructor
  case partition => exact hpartition
  case workers =>
    intro w hmem
    rw [hjoins] at hmem
    rw [List.eq_of_mem_replicate hmem]
    exact Worker.onChain_new
  case channel => simp [Prefetcher.channelItems, hrx]
  case aside => simp [haside, BTreeMap.get, BTreeMap.empty]
  case crew => rw [hjoins, List.length_replicate]
  case staffed => exact hpos
  case room =>
    intro channel hchannel
    rw [hrx] at hchannel
    cases hchannel
    exact Nat.mul_pos hpos (by decide)
  case receiving =>
    intro hreceive
    obtain hphase | hphase := hphase <;> rw [hphase] at hreceive <;> cases hreceive
  case stopping =>
    intro hdrains
    obtain hphase | hphase := hphase <;> rw [hphase] at hdrains <;> cases hdrains

/-- Below the height waited for every block differs down to the fork, and is recorded. -/
theorem ForkAt.descent {start : Option (WithHeightAndId ι Unit)} (hsound : Sound start s)
    (hextends : Extends [] blocks) (hcur : s.prefetcher.curHeight < blocks.length)
    (h : ForkAt blocks s.prefetcher.prevHashes s.prefetcher.curHeight fork) :
    Descent blocks s.prefetcher.prevHashes s.prefetcher.curHeight fork where
  chain := hextends
  top_lt := hcur
  le := h.le
  agrees := h.agrees
  differs := by
    intro height hfork htop
    have hbelow : blocks[height - 1]? = some blocks[height - 1] :=
      List.getElem?_eq_getElem (by omega)
    have hrecorded : s.prefetcher.prevHashes.get (height - 1) ≠ none := by
      obtain rfl | hpos := Nat.eq_zero_or_pos fork
      · exact h.recorded rfl _ (by omega)
      obtain ⟨item, -, hget⟩ := h.agrees hpos
      obtain ⟨-, -, hentries, -⟩ | ⟨greatest, -, hwindow⟩ := hsound.windowed.window
      · rw [BTreeMap.get_eq_some_iff, hentries] at hget
        cases hget
      · have hlow := (hwindow.keys _).1 (BTreeMap.mem_keys_iff.2 ⟨_, hget⟩)
        have hhigh := hwindow.high
        rw [ne_eq, BTreeMap.get_eq_none_iff, not_not, hwindow.keys]
        omega
    obtain ⟨id, hid⟩ := Option.ne_none_iff_exists'.1 hrecorded
    refine ⟨by omega, _, id, hbelow, hid, fun heq => ?_⟩
    exact h.differs (height - 1) _ (by omega) (by omega) hbelow (by rw [hid, heq])

theorem JustStarted.converging {start : Option (WithHeightAndId ι Unit)} (h : JustStarted s)
    (hsound : Sound start s) (hpos : 0 < s.prefetcher.threadNum)
    (hfork : fork ≤ s.prefetcher.curHeight) :
    Converging start blocks s.yielded s.prefetcher.prevHashes s.prefetcher.curHeight fork 0 s where
  sound := hsound
  supplied := h.supplied hsound.partition hpos
  course := by
    have hawaited : s.awaited = s.prefetcher.curHeight := by
      obtain hidle | hlookUp := h.2 <;> simp [State.awaited, Phase.resets, *]
    exact .descending rfl rfl (hawaited ▸ hfork) (Nat.zero_add _)
  alive := by
    intro panic hphase
    obtain hidle | hlookUp := h.2 <;> simp_all

/-! ## The chain the consumer has in the end -/

/-- A list of blocks from height 0 on traces itself. -/
theorem traced_idents (hextends : Extends [] blocks) {blockOf : ι → Option (RpcBlockWithPrevId ι δ)}
    (hblockOf : ∀ item ∈ blocks, blockOf item.block.id = some item) :
    Traced blockOf 0 (idents blocks) := by
  intro index id hpos hget
  rw [idents, List.getElem?_map] at hget
  obtain ⟨item, hitem, rfl⟩ := Option.map_eq_some_iff.1 hget
  have hmem := List.mem_of_getElem? hitem
  have hheight : item.block.height = 0 + index := hextends.height_eq hitem
  have hprev := hextends.prev_eq hmem (by rw [link_height]; omega)
  refine ⟨item, hblockOf item hmem, ?_⟩
  simpa [hheight] using hprev

/-- The last block of a list from height 0 on has the greatest height. -/
theorem length_of_getLast? (hextends : Extends [] blocks) {last : RpcBlockWithPrevId ι δ}
    (htip : blocks.getLast? = some last) : blocks.length = last.block.height + 1 := by
  obtain ⟨lower, rfl⟩ := List.getLast?_eq_some_iff.1 htip
  have hheight := hextends.height_eq (List.getElem?_concat_length (l := lower) (a := last))
  simp only [link_height, List.length_nil, Nat.zero_add] at hheight
  rw [List.length_append, List.length_singleton, hheight]

theorem Linked.consumed_eq {start : Option (WithHeightAndId ι Unit)} {chain : List ι}
    [DecidableEq ι] {yielded : List (RpcBlockWithPrevId ι δ)} (hstart : Starts start chain)
    (hlinks : Linked start chain yielded) (hextends : Extends [] blocks)
    {last : RpcBlockWithPrevId ι δ} (hlast : yielded.getLast? = some last)
    (htip : blocks.getLast? = some last) (hlow : startHeight start ≤ last.block.height)
    (hids : ∀ item ∈ yielded ++ blocks, ∀ other ∈ yielded ++ blocks,
      item.block.id = other.block.id → item = other) :
    (consumed chain yielded).drop (startHeight start) =
      (idents blocks).drop (startHeight start) := by
  let blockOf := fun id => (yielded ++ blocks).find? fun item => item.block.id = id
  have hblockOf : ∀ item ∈ yielded ++ blocks, blockOf item.block.id = some item := by
    intro item hmem
    cases hfind : blockOf item.block.id with
    | none =>
        have hnone := List.find?_eq_none.1 hfind item hmem
        simp at hnone
    | some other =>
        have hid : other.block.id = item.block.id := by simpa using List.find?_some hfind
        rw [hids other (List.mem_of_find?_eq_some hfind) item hmem hid]
  obtain ⟨before, hsnoc⟩ := List.getLast?_eq_some_iff.1 hlast
  have hconsumed : (consumed chain yielded).drop (startHeight start) =
      ancestorLine blockOf (last.block.height - startHeight start) last.block.id := by
    rw [hsnoc] at hlinks ⊢
    apply hlinks.ancestorLine_eq hstart
    intro item hmem
    exact hblockOf item (List.mem_append_left _ (hsnoc ▸ hmem))
  have htraced : Traced blockOf (startHeight start) (idents blocks) := by
    intro index id hindex hget
    exact traced_idents hextends
      (fun item hmem => hblockOf item (List.mem_append_right _ hmem)) index id (by omega) hget
  have hmem : last ∈ blocks := List.mem_of_getLast? htip
  have hat := getElem?_of_extends hextends hmem
  have hlength := length_of_getLast? hextends htip
  have hsum : startHeight start + (last.block.height - startHeight start) = last.block.height := by
    omega
  have htop : (idents blocks)[startHeight start + (last.block.height - startHeight start)]? =
      some last.block.id := by
    rw [hsum, idents, List.getElem?_map, hat]
    rfl
  have hline := htraced.ancestorLine_eq htop
  rw [hsum, ← hlength, ← length_idents, List.take_length] at hline
  rw [hconsumed, hline]

/-- The node serves `blocks`, with errors only up to some time, and every thread goes on
taking steps.  From a fresh start of the workers at a height of that chain, with `fork`
one above the last recorded block of it: the iterator goes down to `fork` by one reset a
height and yields the chain from there on, block by block and without another reset; in
the end the consumer's chain is that of the node from the start block on. -/
theorem converges_to_served_chain [DecidableEq ι] (threadNum count : ℕ)
    (start : Option (WithHeightAndId ι Unit)) (chain : List ι) (earlier : List (Event ι δ))
    (blocks : List (RpcBlockWithPrevId ι δ)) (fork : ℕ) (events : ℕ → Event ι δ)
    (hstart : Starts start chain) (hthreads : 0 < threadNum) (hextends : Extends [] blocks) :
    let s := (State.new threadNum count start).run earlier
    let state := runTo State.step s events
    JustStarted s → s.prefetcher.curHeight < blocks.length →
    ForkAt blocks s.prefetcher.prevHashes s.prefetcher.curHeight fork →
    (∀ item ∈ s.yielded ++ blocks, ∀ other ∈ s.yielded ++ blocks,
      item.block.id = other.block.id → item = other) →
    (∀ time, (events time).answers (Serves blocks)) →
    (∃ last, ∀ time, last ≤ time → ¬ (state time).GetsError (events time)) →
    Fair State.step Event.thread State.Lives s events →
    (∀ time, ∃ count, count ≤ blocks.length - fork ∧
      (state time).yielded = s.yielded ++ (blocks.drop fork).take count ∧
      (if count = 0 then resetsUntil s events time ≤ s.prefetcher.curHeight - fork
        else resetsUntil s events time = s.prefetcher.curHeight - fork) ∧
      ∀ panic, (state time).phase ≠ .panicked panic) ∧
    (∀ count, 0 < count → count ≤ blocks.length - fork → ∃ time, (state time).phase = .idle ∧
      (state time).yielded = s.yielded ++ (blocks.drop fork).take count) ∧
    ∀ time, (state time).yielded = s.yielded ++ blocks.drop fork →
      (consumed chain (state time).yielded).drop (startHeight start) =
        (idents blocks).drop (startHeight start) := by
  intro s state hstarted hcur hfork hids hserves herrors hfair
  have hsound : Sound start s := (sound_new threadNum count start).run earlier
  have hpos : 0 < s.prefetcher.threadNum := threadNum_run hthreads earlier
  have hdescent := hfork.descent hsound hextends hcur
  have hbegin : Converging start blocks s.yielded s.prefetcher.prevHashes s.prefetcher.curHeight
      fork 0 s := hstarted.converging hsound hpos hfork.le
  have hall : ∀ time, Converging start blocks s.yielded s.prefetcher.prevHashes
      s.prefetcher.curHeight fork (resetsUntil s events time) (state time) :=
    hbegin.runTo hdescent hserves
  have hsafe : ∀ time, ∃ count, count ≤ blocks.length - fork ∧
      (state time).yielded = s.yielded ++ (blocks.drop fork).take count ∧
      (if count = 0 then resetsUntil s events time ≤ s.prefetcher.curHeight - fork
        else resetsUntil s events time = s.prefetcher.curHeight - fork) ∧
      ∀ panic, (state time).phase ≠ .panicked panic := by
    intro time
    cases (hall time).course with
    | descending hyielded hhashes hawaited hresets =>
        have hle := hawaited.trans awaited_le
        exact ⟨0, Nat.zero_le _, by simp [hyielded], by simp; omega, (hall time).alive⟩
    | ascending count hpos hyielded hheight hle hphase hagrees hresets =>
        refine ⟨count, by omega, hyielded, ?_, (hall time).alive⟩
        rw [if_neg (by omega)]
        omega
  refine ⟨hsafe, fun count hpositive hcount => ?_, fun time hyielded => ?_⟩
  · obtain ⟨last, hflawless⟩ := herrors
    obtain ⟨time, -, hgoal⟩ := (arrival hdescent).eventually hfair
      (fun later hle => ⟨hserves later, hflawless later hle⟩) le_rfl ⟨_, hall last⟩
    have hreached : s.yielded.length + count ≤ (state time).yielded.length :=
      (Nat.add_le_add_left hcount _).trans hgoal
    obtain ⟨arrived, hidle, hlength⟩ := exists_idle events (by omega) hreached
    refine ⟨arrived, hidle, ?_⟩
    obtain ⟨other, hother, hsame, -⟩ := hsafe arrived
    change (state arrived).yielded.length = _ at hlength
    rw [hsame, List.length_append, List.length_take, List.length_drop] at hlength
    rw [hsame]
    congr 2
    omega
  · have hmissing : (blocks.drop fork) ≠ [] := by
      rw [ne_eq, List.drop_eq_nil_iff]
      have hle := hfork.le
      omega
    obtain ⟨last, hlast⟩ := Option.ne_none_iff_exists'.1
      (mt List.getLast?_eq_none_iff.1 hmissing)
    have htip : blocks.getLast? = some last := by
      rw [← hlast, List.getLast?_drop, if_neg (by simpa using hmissing)]
    have hinv : Inv start chain s := (inv_new threadNum count hstart).run earlier
    have hlinks : Linked start chain (state time).yielded :=
      (kept_runTo (fun _ event h => h.step event) hinv events time).links
    have hlow := hinv.curHeight
    have hlength := length_of_getLast? hextends htip
    refine hlinks.consumed_eq hstart hextends ?_ htip (by omega) ?_
    · rw [hyielded, List.getLast?_append, hlast]
      rfl
    · intro item hitem other hother
      have hmem : ∀ block, block ∈ (state time).yielded ++ blocks → block ∈ s.yielded ++ blocks := by
        intro block hblock
        rw [hyielded, List.mem_append, List.mem_append] at hblock
        obtain (hold | hnew) | hserved := hblock
        · exact List.mem_append_left _ hold
        · exact List.mem_append_right _ (List.mem_of_mem_drop hnew)
        · exact List.mem_append_right _ hserved
      exact hids item (hmem item hitem) other (hmem other hother)

/-- Everyone takes turns: the caller, the iterator, and one worker after the other. -/
@[irreducible]
def turns (rpc : Rpc ℕ Unit) (time : ℕ) : Event ℕ Unit :=
  match time % 3 with
  | 0 => .next
  | 1 => .consumer
  | _ => .worker (Nat.unpair (time / 3)).1 rpc

theorem turns_fair (rpc : Rpc ℕ Unit) (s : State ℕ Unit) :
    Fair State.step Event.thread State.Lives s (turns rpc) := by
  intro t time
  cases t with
  | caller => exact ⟨3 * time, by omega, fun _ => by simp [turns, Event.thread]⟩
  | iterator =>
      exact ⟨3 * time + 1, by omega, fun _ => by simp [turns, Event.thread, Nat.add_mod]⟩
  | worker index =>
      have hle := Nat.right_le_pair index time
      refine ⟨3 * Nat.pair index time + 2, by omega, fun _ => ?_⟩
      have hmod : (3 * Nat.pair index time + 2) % 3 = 2 := by omega
      have hdiv : (3 * Nat.pair index time + 2) / 3 = Nat.pair index time := by omega
      simp [turns, Event.thread, hmod, hdiv]

theorem turns_answers {rpc : Rpc ℕ Unit} {answered : Rpc ℕ Unit → Prop} (h : answered rpc)
    (time : ℕ) : (turns rpc time).answers answered := by
  unfold turns
  split
  · exact trivial
  · exact trivial
  · exact h

/-- The chain of the node once the start block at height 0 has been replaced. -/
def replaced : List (RpcBlockWithPrevId ℕ Unit) := [blockAt 0 20 9, blockAt 1 21 20]

theorem replaced_served : Serves replaced (serve replaced) where
  ids := by
    intro height answer hanswer
    cases hanswer
    obtain hzero | hone | hmore : height = 0 ∨ height = 1 ∨ 2 ≤ height := by omega
    · subst hzero
      rfl
    · subst hone
      rfl
    · have hnone : replaced[height]? = none := List.getElem?_eq_none hmore
      rw [hnone]
      have hzero : ¬ 0 = height := by omega
      have hone : ¬ 1 = height := by omega
      simp [replaced, blockAt, hzero, hone]
  blocks := by
    intro item hmem answer hanswer
    cases hanswer
    obtain rfl | rfl : item = blockAt 0 20 9 ∨ item = blockAt 1 21 20 := by
      simpa [replaced] using hmem
    · rfl
    · rfl

theorem serve_getsNoError (blocks : List (RpcBlockWithPrevId ℕ Unit)) (s : State ℕ Unit)
    (time : ℕ) : ¬ s.GetsError (turns (serve blocks) time) := by
  unfold turns
  split
  · exact id
  · exact id
  · rintro ⟨w, -, herror⟩
    unfold Worker.GetsError at herror
    split at herror <;> simp [serve] at herror

theorem replaced_chain_arrives :
    let s := State.new 1 9 (some ⟨0, 10, ()⟩)
    ∃ time, (runTo State.step s (turns (serve replaced)) time).yielded = replaced ∧
      resetsUntil s (turns (serve replaced)) time = 1 ∧
      consumed [10] (runTo State.step s (turns (serve replaced)) time).yielded = [20, 21] := by
  intro s
  have hextends : Extends [] replaced := by simp [Extends, replaced, blockAt]
  have hbelow : ∀ height, height < 1 → height = 0 := by omega
  obtain ⟨hsafe, harrives, hchain⟩ := converges_to_served_chain 1 9 (some ⟨0, 10, ()⟩) [10] []
    replaced 0 (turns (serve replaced)) ⟨rfl, rfl⟩ Nat.one_pos hextends ⟨rfl, .inl rfl⟩
    (by decide)
    { le := Nat.zero_le _
      agrees := fun hpos => absurd hpos (lt_irrefl 0)
      differs := by
        intro height item _ hlt hitem
        obtain rfl := hbelow height hlt
        cases hitem
        decide
      recorded := by
        intro _ height hlt
        obtain rfl := hbelow height hlt
        decide }
    (by decide) (turns_answers replaced_served) ⟨0, fun time _ => serve_getsNoError _ _ time⟩
    (turns_fair _ _)
  obtain ⟨time, -, hyielded⟩ := harrives 2 (by decide) (by decide)
  obtain ⟨count, hcount, hsame, hresets, -⟩ := hsafe time
  have hall : count = 2 := by
    rw [hyielded] at hsame
    have hlength := congrArg List.length hsame
    change 2 = _ at hlength
    simp only [List.length_append, List.length_take, List.length_drop] at hlength
    change count ≤ 2 at hcount
    change 2 = 0 + min count 2 at hlength
    omega
  rw [if_neg (by omega)] at hresets
  exact ⟨time, hyielded, hresets, hchain time hyielded⟩

end BitcoinIndexer.Node
