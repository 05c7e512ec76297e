import BitcoinIndexer.Node.Window

/-!
# Workers on a fixed chain

The node serves one chain, with errors now and then.  Then every block on its way is one
of that chain, and each step of a worker brings down what is left to do, but for those
that poll for a height the chain does not have yet.
-/

namespace BitcoinIndexer.Node

open BitcoinIndexer.ReferenceChain
open BitcoinIndexer.OrderedMap

variable {ι δ : Type}

/-- What the node answers is the chain, or an error. -/
structure Serves (blocks : List (RpcBlockWithPrevId ι δ)) (rpc : Rpc ι δ) : Prop where
  ids : ∀ height answer, rpc.getBlockIdByHeight height = .ok answer →
    answer = blocks[height]?.map (·.block.id)
  blocks : ∀ item ∈ blocks, ∀ answer, rpc.getBlockById item.block.id = .ok answer →
    answer = some (item.block.data, item.prevBlockId)

variable {blocks : List (RpcBlockWithPrevId ι δ)}

namespace Worker

/-- What a worker has got from the node is of the chain. -/
def OnChain (blocks : List (RpcBlockWithPrevId ι δ)) (w : Worker ι δ) : Prop :=
  match w.pc with
  | .getBlock height id => ∃ item, blocks[height]? = some item ∧ item.block.id = id
  | .send height item => blocks[height]? = some item
  | _ => True

/-- The steps from here to the end of a worker that is told to stop. -/
def toEnd (w : Worker ι δ) : ℕ :=
  match w.pc with
  | .getId _ => 8
  | .getBlock _ _ => 7
  | .send _ _ => 6
  | .markFetched _ => 4
  | .fetchAdd => 3
  | .register _ | .retry _ => 2
  | .checkFinish _ => 1
  | .returned | .panicked => 0

/-- The steps from here to the next claim, for a height below `top`. -/
def toClaim (top : ℕ) (w : Worker ι δ) : ℕ :=
  match w.pc with
  | .register height => if height < top then 9 else 1
  | .retry height => if height < top then 9 else 0
  | .checkFinish height => if height < top then 8 else 0
  | .getId height => if height < top then 7 else 0
  | .getBlock _ _ => 6
  | .send _ _ => 5
  | .markFetched _ => 3
  | .fetchAdd => 2
  | .returned | .panicked => 0

/-- A worker that asks for a height from `top` on. -/
def Polls (top : ℕ) (w : Worker ι δ) : Prop :=
  match w.pc with
  | .checkFinish height | .getId height | .retry height => top ≤ height
  | _ => False

/-- The node answers what the worker asks now with an error. -/
def GetsError (w : Worker ι δ) (rpc : Rpc ι δ) : Prop :=
  match w.pc with
  | .getId height => ∃ error, rpc.getBlockIdByHeight height = .error error
  | .getBlock _ id => ∃ error, rpc.getBlockById id = .error error
  | _ => False

theorem onChain_new : (new : Worker ι δ).OnChain blocks := trivial

end Worker

namespace Prefetcher

open Worker

variable {p q : Prefetcher ι δ} {rpc : Rpc ι δ} {w w' : Worker ι δ}

theorem Worked.onChain (hworked : Worked p rpc w w' q) (hextends : Extends [] blocks)
    (hserves : Serves blocks rpc) (hchain : w.OnChain blocks) : w'.OnChain blocks := by
  cases hworked with
  | identified inProgress height id hanswer =>
      obtain ⟨item, hitem, hid⟩ := Option.map_eq_some_iff.1 (hserves.ids height _ hanswer).symm
      exact ⟨item, hitem, hid⟩
  | fetched inProgress height id data prevBlockId hanswer =>
      obtain ⟨item, hitem, rfl⟩ := hchain
      have hmem := List.mem_of_getElem? hitem
      have hheight : item.block.height = 0 + height := hextends.height_eq hitem
      obtain ⟨rfl, rfl⟩ := Prod.mk.inj (Option.some.inj (hserves.blocks item hmem _ hanswer))
      rw [Nat.zero_add] at hheight
      subst hheight
      exact hitem
  | _ => exact trivial

theorem Worked.channel_sub (hworked : Worked p rpc w w' q) (hchain : w.OnChain blocks)
    (hitems : ∀ item ∈ p.channelItems, item ∈ blocks) : ∀ item ∈ q.channelItems, item ∈ blocks := by
  intro item hmem
  obtain hbefore | hsending := hworked.carried item hmem
  · exact hitems item hbefore
  · unfold sending at hsending
    unfold OnChain at hchain
    split at hsending
    · rename_i height sentItem hpc
      rw [hpc] at hchain
      cases hsending
      exact List.mem_of_getElem? hchain
    · cases hsending

/-- Once told to stop, every step of a worker brings its end nearer. -/
theorem Worked.nears_end (hworked : Worked p rpc w w' q) (hfinish : p.workersFinish = true) :
    w'.toEnd + q.channelItems.length < w.toEnd + p.channelItems.length := by
  cases hworked with
  | untold inProgress height hgoing => simp [hfinish] at hgoing
  | sent inProgress height item channel hrx hroom => simp [toEnd, channelItems, hrx]; omega
  | claimed inProgress => simp [toEnd, channelItems]
  | _ => simp [toEnd]

/-- On the chain, a step of a worker brings the next claim nearer unless it polls. -/
theorem Worked.nears_claim (hworked : Worked p rpc w w' q) (hserves : Serves blocks rpc)
    (hanswered : ¬ w.GetsError rpc) (hchain : w.OnChain blocks) (horderly : w'.Orderly)
    (hgoing : p.workersFinish = false) :
    w'.toClaim blocks.length + q.channelItems.length + 8 * (blocks.length - q.nextHeight) <
        w.toClaim blocks.length + p.channelItems.length + 8 * (blocks.length - p.nextHeight) ∨
      (w.Polls blocks.length ∧ w'.toClaim blocks.length = w.toClaim blocks.length ∧ q = p) := by
  cases hworked with
  | claimed inProgress =>
      left
      simp only [toClaim, channelItems]
      split <;> omega
  | registered inProgress height =>
      left
      simp only [toClaim]
      split <;> omega
  | told inProgress height hfinish => simp [hgoing] at hfinish
  | untold inProgress height hfinish =>
      by_cases hlt : height < blocks.length
      · left
        simp [toClaim, hlt]
      · exact .inr ⟨by simpa [Polls] using hlt, by simp [toClaim, hlt], rfl⟩
  | identified inProgress height id hanswer =>
      obtain ⟨item, hitem, -⟩ := Option.map_eq_some_iff.1 (hserves.ids height _ hanswer).symm
      obtain ⟨hlt, -⟩ := List.getElem?_eq_some_iff.1 hitem
      left
      simp [toClaim, hlt]
  | noBlock inProgress height hanswer =>
      have hnone := (hserves.ids height _ hanswer).symm
      rw [Option.map_eq_none_iff, List.getElem?_eq_none_iff] at hnone
      have hge : ¬ height < blocks.length := by omega
      exact .inr ⟨hnone, by simp [toClaim, hge], rfl⟩
  | idFailed inProgress height error hanswer => exact absurd ⟨error, hanswer⟩ hanswered
  | blockGone inProgress height id hanswer =>
      obtain ⟨item, hitem, rfl⟩ := hchain
      cases hserves.blocks item (List.mem_of_getElem? hitem) _ hanswer
  | blockFailed inProgress height id error hanswer => exact absurd ⟨error, hanswer⟩ hanswered
  | retried inProgress height ahead hahead =>
      by_cases hlt : height < blocks.length
      · left
        simp [toClaim, hlt]
      · exact .inr ⟨by simpa [Polls] using hlt, by simp [toClaim, hlt], rfl⟩
  | sent inProgress height item channel hrx hroom =>
      left
      simp [toClaim, channelItems, hrx]
      omega
  | fetched | marked => left; simp [toClaim]
  | noMinimum | disconnected | unmarked => exact absurd horderly id

/-- Only a full channel makes a worker wait. -/
theorem exists_workerStep (rpc : Rpc ι δ) (hended : w.ended = false)
    (hroom : ∀ channel, p.rx = some channel → channel.items.length < channel.capacity) :
    ∃ w' q, p.workerStep rpc w = some (w', q) := by
  cases hpc : w.pc with
  | returned | panicked => simp [ended, hpc] at hended
  | send height item =>
      simp only [workerStep, hpc]
      cases hrx : p.rx with
      | none => exact ⟨_, _, rfl⟩
      | some channel =>
          simp only [hroom channel hrx, if_true]
          exact ⟨_, _, rfl⟩
  | fetchAdd | register | checkFinish =>
      simp only [workerStep, hpc]
      exact ⟨_, _, rfl⟩
  | getId | getBlock | retry | markFetched =>
      simp only [workerStep, hpc]
      split <;> exact ⟨_, _, rfl⟩

/-! ## The workers together -/

/-- Replacing one element exchanges its part of a sum. -/
theorem sum_map_set {α : Type} (f : α → ℕ) {values : List α} {index : ℕ} {old : α} (new : α)
    (hget : values[index]? = some old) :
    ((values.set index new).map f).sum + f old = (values.map f).sum + f new := by
  induction values generalizing index with
  | nil => simp at hget
  | cons head values ih =>
      cases index with
      | zero =>
          simp only [List.getElem?_cons_zero, Option.some.injEq] at hget
          simp only [List.set_cons_zero, List.map_cons, List.sum_cons, hget]
          omega
      | succ index =>
          simp only [List.getElem?_cons_succ] at hget
          have htail := ih hget
          simp only [List.set_cons_succ, List.map_cons, List.sum_cons]
          omega

/-- What is left until the workers that are told to stop have ended. -/
def stopRank (p : Prefetcher ι δ) : ℕ :=
  (p.threadJoins.map Worker.toEnd).sum + p.channelItems.length

/-- What is left until nothing below `top` is to be fetched. -/
def fetchRank (top : ℕ) (p : Prefetcher ι δ) : ℕ :=
  (p.threadJoins.map (Worker.toClaim top)).sum + p.channelItems.length + 8 * (top - p.nextHeight)

theorem Worked.stopRank_lt {index : ℕ} (hworked : Worked p rpc w w' q)
    (hget : p.threadJoins[index]? = some w) (hfinish : p.workersFinish = true) :
    stopRank { q with threadJoins := q.threadJoins.set index w' } < p.stopRank := by
  have hlt := hworked.nears_end hfinish
  have hset := sum_map_set Worker.toEnd w' hget
  have hrank : stopRank { q with threadJoins := q.threadJoins.set index w' } =
      ((q.threadJoins.set index w').map Worker.toEnd).sum + q.channelItems.length := rfl
  rw [hrank, hworked.joins.1, stopRank]
  omega

/-- A step of a worker on the chain brings the rank down, or the worker polls and
changes nothing else. -/
theorem Worked.fetchRank_le {index : ℕ} (hworked : Worked p rpc w w' q)
    (hget : p.threadJoins[index]? = some w) (hserves : Serves blocks rpc)
    (hanswered : ¬ w.GetsError rpc) (hchain : w.OnChain blocks) (horderly : w'.Orderly)
    (hgoing : p.workersFinish = false) :
    fetchRank blocks.length { q with threadJoins := q.threadJoins.set index w' } <
        p.fetchRank blocks.length ∨
      (w.Polls blocks.length ∧ q = p ∧
        fetchRank blocks.length { q with threadJoins := q.threadJoins.set index w' } =
          p.fetchRank blocks.length) := by
  have hset := sum_map_set (Worker.toClaim blocks.length) w' hget
  have hrank : fetchRank blocks.length { q with threadJoins := q.threadJoins.set index w' } =
      ((q.threadJoins.set index w').map (Worker.toClaim blocks.length)).sum +
        q.channelItems.length + 8 * (blocks.length - q.nextHeight) := rfl
  rw [hrank, hworked.joins.1, fetchRank]
  obtain hlt | ⟨hpolls, hsame, rfl⟩ :=
    hworked.nears_claim hserves hanswered hchain horderly hgoing
  · left
    omega
  · exact .inr ⟨hpolls, rfl, by omega⟩

end Prefetcher

/-! ## What holds while the node serves a chain -/

/-- All blocks on their way are of the chain, each in a place of its own, and there are
workers. -/
structure Supplied (blocks : List (RpcBlockWithPrevId ι δ)) (s : State ι δ) :
    Prop where
  partition : ∃ g, Partition g s
  workers : ∀ w ∈ s.prefetcher.threadJoins, w.OnChain blocks
  channel : ∀ item ∈ s.prefetcher.channelItems, item ∈ blocks
  aside : ∀ height item, s.prefetcher.outOfOrderItems.get height = some item → item ∈ blocks
  crew : s.prefetcher.threadJoins.length = s.prefetcher.threadNum
  staffed : 0 < s.prefetcher.threadNum
  room : ∀ channel, s.prefetcher.rx = some channel → 0 < channel.capacity
  receiving : s.phase = .receive →
    s.prefetcher.outOfOrderItems.get s.prefetcher.curHeight = none
  stopping : s.phase.drains = true → s.prefetcher.workersFinish = true

variable {s : State ι δ}

namespace Supplied

theorem offered_mem (h : Supplied blocks s) {item : RpcBlockWithPrevId ι δ}
    {p : Prefetcher ι δ} (hoffered : Offered s item p) : item ∈ blocks := by
  cases hoffered with
  | buffered item hphase hget => exact h.aside _ item hget
  | received channel item items hphase hrx hitems hheight =>
      exact h.channel item (by simp [Prefetcher.channelItems, hrx, hitems])

theorem restarted {g : Generation ι δ} {p : Prefetcher ι δ} {threadNum height : ℕ}
    {yielded : List (RpcBlockWithPrevId ι δ)}
    (hpartition : Partition g ⟨p.restarted threadNum height, .lookUp, yielded⟩)
    (hsome : 0 < threadNum) :
    Supplied blocks ⟨p.restarted threadNum height, .lookUp, yielded⟩ where
  partition := ⟨g, hpartition⟩
  workers := by
    intro w hmem
    rw [List.eq_of_mem_replicate hmem]
    exact Worker.onChain_new
  channel := by simp [Prefetcher.restarted, Prefetcher.channelItems]
  aside := by simp [Prefetcher.restarted, BTreeMap.get, BTreeMap.empty]
  crew := by simp [Prefetcher.restarted]
  staffed := hsome
  room := by
    intro channel hrx
    cases hrx
    exact Nat.mul_pos hsome (by decide)
  receiving := by simp
  stopping := by simp [Phase.drains]

theorem worked (h : Supplied blocks s) {p : Prefetcher ι δ} {rpc : Rpc ι δ}
    {w w' : Worker ι δ} {index : ℕ} (hextends : Extends [] blocks) (hserves : Serves blocks rpc)
    (hget : s.prefetcher.threadJoins[index]? = some w)
    (hworked : Prefetcher.Worked s.prefetcher rpc w w' p)
    (hpartition : ∃ g, Partition g
      { s with prefetcher := { p with threadJoins := p.threadJoins.set index w' } }) :
    Supplied blocks
      { s with prefetcher := { p with threadJoins := p.threadJoins.set index w' } } := by
  have hchain := h.workers w (List.mem_of_getElem? hget)
  have hchain' := hworked.onChain hextends hserves hchain
  have hchannel := hworked.channel_sub hchain h.channel
  have hroom : ∀ channel, p.rx = some channel → 0 < channel.capacity := by
    cases hworked with
    | sent inProgress height item channel hrx hroom =>
        intro other hother
        cases hother
        exact h.room channel hrx
    | _ => exact h.room
  obtain ⟨nextHeight, rx, rfl⟩ := hworked.frame
  refine ⟨hpartition, fun other hmem => ?_, hchannel, h.aside, ?_, h.staffed, hroom,
    h.receiving, h.stopping⟩
  · obtain hold | rfl := List.mem_or_eq_of_mem_set hmem
    · exact h.workers other hold
    · exact hchain'
  · simpa using h.crew

/-- A step of the iterator that leaves the workers alone. -/
theorem consume (h : Supplied blocks s) {p : Prefetcher ι δ} {phase : Phase ι}
    {yielded : List (RpcBlockWithPrevId ι δ)} (hpartition : ∃ g, Partition g ⟨p, phase, yielded⟩)
    (hjoins : p.threadJoins = s.prefetcher.threadJoins)
    (hnum : p.threadNum = s.prefetcher.threadNum)
    (hchannel : p.channelItems ⊆ s.prefetcher.channelItems)
    (haside : ∀ height item, p.outOfOrderItems.get height = some item → item ∈ blocks)
    (hroom : ∀ channel, p.rx = some channel → 0 < channel.capacity)
    (hreceiving : phase = .receive → p.outOfOrderItems.get p.curHeight = none)
    (hstopping : phase.drains = true → p.workersFinish = true) :
    Supplied blocks ⟨p, phase, yielded⟩ where
  partition := hpartition
  workers := hjoins ▸ h.workers
  channel := fun item hmem => h.channel item (hchannel hmem)
  aside := haside
  crew := by rw [hjoins, hnum, h.crew]
  staffed := hnum ▸ h.staffed
  room := hroom
  receiving := hreceiving
  stopping := hstopping

/-- A block the iterator has taken. -/
theorem taken (h : Supplied blocks s) {item : RpcBlockWithPrevId ι δ}
    {p : Prefetcher ι δ} (hoffered : Offered s item p) :
    p.threadJoins = s.prefetcher.threadJoins ∧ p.threadNum = s.prefetcher.threadNum ∧
      p.channelItems ⊆ s.prefetcher.channelItems ∧
      (∀ height other, p.outOfOrderItems.get height = some other → other ∈ blocks) ∧
      ∀ channel, p.rx = some channel → 0 < channel.capacity := by
  have haside : ∀ height other, p.outOfOrderItems.get height = some other → other ∈ blocks :=
    fun height other hget => h.aside height other (hoffered.outOfOrderItems hget)
  cases hoffered with
  | buffered item hphase hget =>
      exact ⟨rfl, rfl, List.Subset.refl _, haside, h.room⟩
  | received channel item items hphase hrx hitems hheight =>
      refine ⟨rfl, rfl, ?_, haside, fun other hother => ?_⟩
      · rw [Prefetcher.channelItems_of_rx hrx hitems]
        exact List.subset_cons_self _ _
      · cases hother
        exact h.room channel hrx

end Supplied

/-- The node's answers at the event have the property. -/
def Event.answers (answered : Rpc ι δ → Prop) : Event ι δ → Prop
  | .worker _ rpc => answered rpc
  | .next | .consumer => True

theorem Supplied.step [DecidableEq ι] (hextends : Extends [] blocks)
    (h : Supplied blocks s) (event : Event ι δ)
    (hserves : event.answers (Serves blocks)) : Supplied blocks (s.step event) := by
  have hpartition : ∃ g, Partition g (s.step event) := by
    obtain ⟨g, hg⟩ := h.partition
    exact ⟨_, Watched.inv_step ⟨s, g⟩ event hg⟩
  have htransition := transition_step s event
  generalize s.step event = after at htransition hpartition
  cases htransition with
  | stay => exact h
  | worked index rpc w w' p hget hstep =>
      exact h.worked hextends hserves hget (Prefetcher.worked_of_workerStep hstep) hpartition
  | yielded item p q hoffered htrack =>
      obtain ⟨hjoins, hnum, hchannel, haside, hroom⟩ := h.taken hoffered
      obtain ⟨-, ⟨-, -, rfl, -⟩ | ⟨hfalse, -⟩⟩ := Prefetcher.trackReorgs_eq_ok htrack
      · exact h.consume hpartition hjoins hnum hchannel haside hroom (by simp)
          (by simp [Phase.drains])
      · cases hfalse
  | reorgFound item p hoffered htrack =>
      obtain ⟨hjoins, hnum, hchannel, haside, hroom⟩ := h.taken hoffered
      exact h.consume hpartition hjoins hnum hchannel haside hroom (by simp)
        (by simp [Phase.drains])
  | trackPanicked item p panic hoffered htrack =>
      obtain ⟨hjoins, hnum, hchannel, haside, hroom⟩ := h.taken hoffered
      exact h.consume hpartition hjoins hnum hchannel haside hroom (by simp)
        (by simp [Phase.drains])
  | notBuffered hphase hget =>
      exact h.consume hpartition rfl rfl (List.Subset.refl _) h.aside h.room (fun _ => hget)
        (by simp [Phase.drains])
  | putAside channel item items hphase hrx hitems hheight =>
      have hchannel := Prefetcher.channelItems_of_rx hrx hitems
      apply h.consume hpartition rfl rfl
      · rw [hchannel]
        exact List.subset_cons_self _ _
      · intro height other hget
        rw [BTreeMap.get_eq_some_iff, BTreeMap.mem_entries_insert] at hget
        obtain heq | ⟨hold, -⟩ := hget
        · obtain ⟨-, rfl⟩ := Prod.mk.inj heq
          exact h.channel other (by simp [hchannel])
        · exact h.aside height other (BTreeMap.get_eq_some_iff.2 hold)
      · intro other hother
        cases hother
        exact h.room channel hrx
      · intro _
        have hne : s.prefetcher.curHeight ≠ item.block.height := by omega
        exact (BTreeMap.get_insert_of_ne _ _ hne).trans (h.receiving hphase)
      · exact h.stopping
  | drained stop channel item items hphase hrx hitems =>
      apply h.consume hpartition rfl rfl _ h.aside
      · intro other hother
        cases hother
        exact h.room channel hrx
      · simp [hphase]
      · exact h.stopping
      · rw [Prefetcher.channelItems_of_rx hrx hitems]
        exact List.subset_cons_self _ _
  | fastSyncRestart channel hphase hrx hitems hended =>
      obtain ⟨g, hg⟩ := hpartition
      exact Supplied.restarted hg Nat.one_pos
  | reorgRestart channel hphase hrx hitems hended hpos =>
      obtain ⟨g, hg⟩ := hpartition
      exact Supplied.restarted hg h.staffed
  | rxMissing panic hrx =>
      obtain ⟨g, hg⟩ := h.partition
      exact absurd hrx hg.rx
  | belowCurrent channel item items hphase hrx hitems hheight =>
      apply h.consume hpartition rfl rfl _ h.aside
      · intro other hother
        cases hother
        exact h.room channel hrx
      · simp
      · simp [Phase.drains]
      · rw [Prefetcher.channelItems_of_rx hrx hitems]
        exact List.subset_cons_self _ _
  | finished stop hphase =>
      exact h.consume hpartition rfl rfl (List.Subset.refl _) h.aside h.room (by simp)
        fun _ => rfl
  | fastSyncEnded | asked | disconnected | resetAtZero =>
      exact h.consume hpartition rfl rfl (List.Subset.refl _) h.aside h.room (by simp)
        (by simp [Phase.drains])

end BitcoinIndexer.Node
