import BitcoinIndexer.Node.Workers

/-!
# A generation of workers

From one start of the workers to the next: who claimed which height, and which blocks
were fetched.  While the workers are not being stopped, every claimed height is with a
worker, in the channel, put aside or consumed, and in one of them only.
-/

namespace BitcoinIndexer.Node

open BitcoinIndexer.OrderedMap

variable {ι δ : Type}

/-- What has happened since the workers were last started: the height they started from,
the claims as worker and height, and the blocks fetched. -/
structure Generation (ι δ : Type) where
  start : ℕ
  claims : List (ℕ × ℕ)
  fetched : List (RpcBlockWithPrevId ι δ)

namespace Generation

def new (height : ℕ) : Generation ι δ := ⟨height, [], []⟩

/-- What a step of a worker adds. -/
def worked (g : Generation ι δ) (p : Prefetcher ι δ) (index : ℕ) (rpc : Rpc ι δ)
    (w : Worker ι δ) : Generation ι δ :=
  match w.pc with
  | .fetchAdd => { g with claims := g.claims ++ [(index, p.nextHeight)] }
  | .getBlock height id =>
      match rpc.getBlockById id with
      | .ok (some (data, prevBlockId)) =>
          { g with fetched := g.fetched ++ [⟨⟨height, id, data⟩, prevBlockId⟩] }
      | _ => g
  | _ => g

end Generation

/-- The workers of the generation are not being stopped, and the iterator lives. -/
def Phase.serves : Phase ι → Bool
  | .idle | .lookUp | .receive | .finish .endOfFastSync => true
  | .finish .reorg | .drain _ | .panicked _ => false

/-- The workers have been told to stop. -/
def Phase.drains : Phase ι → Bool
  | .drain _ => true
  | _ => false

/-- Workers are started again at the end of `drain`. -/
def restarts (before after : State ι δ) : Bool :=
  match before.phase, after.phase with
  | .drain _, .lookUp => true
  | _, _ => false

theorem restarts_eq_false {before after : State ι δ}
    (h : before.phase.drains = false ∨ after.phase ≠ .lookUp) : restarts before after = false := by
  unfold restarts
  split
  · simp_all [Phase.drains]
  · rfl

/-- The prefetcher with what is known of its workers. -/
structure Watched (ι δ : Type) where
  state : State ι δ
  generation : Generation ι δ

namespace Watched

def new (threadNum count : ℕ) (start : Option (WithHeightAndId ι Unit)) : Watched ι δ :=
  ⟨.new threadNum count start, .new (State.new (δ := δ) threadNum count start).prefetcher.curHeight⟩

variable [DecidableEq ι]

def step (watched : Watched ι δ) (event : Event ι δ) : Watched ι δ :=
  let s := watched.state
  let g := watched.generation
  { state := s.step event
    generation :=
      if restarts s (s.step event) then .new (s.step event).prefetcher.curHeight
      else match event with
        | .next | .consumer => g
        | .worker index rpc =>
            match s.prefetcher.threadJoins[index]? with
            | some w => g.worked s.prefetcher index rpc w
            | none => g }

def run (watched : Watched ι δ) (events : List (Event ι δ)) : Watched ι δ :=
  events.foldl step watched

@[simp]
theorem state_run (watched : Watched ι δ) (events : List (Event ι δ)) :
    (watched.run events).state = watched.state.run events := by
  induction events generalizing watched with
  | nil => rfl
  | cons event events ih => exact ih (watched.step event)

end Watched

theorem Phase.serving_of_serves {phase : Phase ι} (h : phase.serves = true) :
    phase.drains = false ∧ ∀ panic, phase ≠ .panicked panic := by
  cases phase <;> simp_all [serves, drains]

structure Partition (g : Generation ι δ) (s : State ι δ) : Prop where
  rx : s.prefetcher.rx ≠ none
  orderly : ∀ w ∈ s.prefetcher.threadJoins, w.Orderly
  keyed : ∀ height item, s.prefetcher.outOfOrderItems.get height = some item →
    item.block.height = height
  told : s.phase.drains = false → (∀ panic, s.phase ≠ .panicked panic) →
    s.prefetcher.workersFinish = false
  present : s.prefetcher.workersFinish = false →
    ∀ w ∈ s.prefetcher.threadJoins, w.pc ≠ .returned
  claims : g.claims.map Prod.snd =
    List.range' g.start (s.prefetcher.nextHeight - g.start)
  started : g.start ≤ s.prefetcher.curHeight
  claimed : s.prefetcher.curHeight ≤ s.prefetcher.nextHeight
  split : ∃ discarded : Multiset ℕ,
    s.prefetcher.underWay + heightsFrom g.start s.prefetcher.curHeight + discarded =
      heightsFrom g.start s.prefetcher.nextHeight ∧ (s.phase.serves = true → discarded = 0)
  holders : ∀ index w height, s.prefetcher.threadJoins[index]? = some w →
    w.held = some height → (index, height) ∈ g.claims
  fetched : ∀ item, s.prefetcher.Carries item → item ∈ g.fetched

variable {g : Generation ι δ} {s : State ι δ}

namespace Partition

/-- No height is in two places. -/
theorem nodup (h : Partition g s) :
    (s.prefetcher.underWay + heightsFrom g.start s.prefetcher.curHeight).Nodup := by
  obtain ⟨discarded, hsplit, -⟩ := h.split
  apply Multiset.nodup_of_le (Multiset.le_add_right _ discarded)
  rw [hsplit]
  exact nodup_heightsFrom _ _

/-- What is under way has been claimed and not consumed. -/
theorem ahead (h : Partition g s) {height : ℕ} (hmem : height ∈ s.prefetcher.underWay) :
    s.prefetcher.curHeight ≤ height ∧ height < s.prefetcher.nextHeight := by
  obtain ⟨discarded, hsplit, -⟩ := h.split
  have hclaimed : height ∈ heightsFrom g.start s.prefetcher.nextHeight := by
    rw [← hsplit]
    exact Multiset.mem_add.2 (.inl (Multiset.mem_add.2 (.inl hmem)))
  have hunconsumed : height ∉ heightsFrom g.start s.prefetcher.curHeight :=
    Multiset.disjoint_left.1 (Multiset.nodup_add.1 h.nodup).2.2 hmem
  rw [mem_heightsFrom] at hclaimed hunconsumed
  omega

theorem channel_underWay {item : RpcBlockWithPrevId ι δ}
    (hmem : item ∈ s.prefetcher.channelItems) : item.block.height ∈ s.prefetcher.underWay := by
  refine Multiset.mem_add.2 (.inl (Multiset.mem_add.2 (.inr ?_)))
  exact Multiset.mem_coe.2 (List.mem_map_of_mem hmem)

/-- What is received has not been put aside before. -/
theorem not_putAside (h : Partition g s) {item : RpcBlockWithPrevId ι δ}
    (hmem : item ∈ s.prefetcher.channelItems) :
    s.prefetcher.outOfOrderItems.get item.block.height = none := by
  rw [BTreeMap.get_eq_none_iff]
  intro hkey
  have hnodup : s.prefetcher.underWay.Nodup := (Multiset.nodup_add.1 h.nodup).1
  have hdisjoint := (Multiset.nodup_add.1 hnodup).2.2
  have hchannel : item.block.height ∈ s.prefetcher.held + s.prefetcher.inChannel :=
    Multiset.mem_add.2 (.inr (Multiset.mem_coe.2 (List.mem_map_of_mem hmem)))
  exact Multiset.disjoint_left.1 hdisjoint hchannel (Multiset.mem_coe.2 hkey)

theorem offered_height (h : Partition g s) {item : RpcBlockWithPrevId ι δ}
    {p : Prefetcher ι δ} (hoffered : Offered s item p) :
    item.block.height = s.prefetcher.curHeight := by
  cases hoffered with
  | buffered item hphase hget => exact h.keyed _ item hget
  | received channel item items hphase hrx hitems hheight => exact hheight

/-! ## Steps that keep the generation -/

/-- A step of the iterator that leaves the workers and the claims alone. -/
theorem consume (h : Partition g s) {p : Prefetcher ι δ} {phase : Phase ι}
    {yielded : List (RpcBlockWithPrevId ι δ)}
    (hrx : p.rx ≠ none) (hjoins : p.threadJoins = s.prefetcher.threadJoins)
    (hkeyed : ∀ height item, p.outOfOrderItems.get height = some item → item.block.height = height)
    (htold : phase.drains = false → (∀ panic, phase ≠ .panicked panic) → p.workersFinish = false)
    (hfinish : p.workersFinish = false → s.prefetcher.workersFinish = false)
    (hnext : p.nextHeight = s.prefetcher.nextHeight)
    (hstarted : s.prefetcher.curHeight ≤ p.curHeight) (hclaimed : p.curHeight ≤ p.nextHeight)
    (hsplit : ∃ discarded, p.underWay + heightsFrom s.prefetcher.curHeight p.curHeight + discarded =
      s.prefetcher.underWay ∧ (phase.serves = true → discarded = 0 ∧ s.phase.serves = true))
    (hcarries : ∀ item, p.Carries item → s.prefetcher.Carries item) :
    Partition g ⟨p, phase, yielded⟩ where
  rx := hrx
  orderly := by
    rw [hjoins]
    exact h.orderly
  keyed := hkeyed
  told := htold
  present := by
    rw [hjoins]
    exact fun hp => h.present (hfinish hp)
  claims := by
    rw [hnext]
    exact h.claims
  started := h.started.trans hstarted
  claimed := hclaimed
  split := by
    obtain ⟨lost, hunderWay, hserves⟩ := hsplit
    obtain ⟨discarded, hclaims, hlive⟩ := h.split
    refine ⟨lost + discarded, ?_, fun hphase => ?_⟩
    · rw [hnext, ← hclaims, ← hunderWay, heightsFrom_add h.started hstarted]
      abel
    · obtain ⟨rfl, hbefore⟩ := hserves hphase
      rw [hlive hbefore, add_zero]
  holders := by
    rw [hjoins]
    exact h.holders
  fetched := fun item hitem => h.fetched item (hcarries item hitem)

end Partition

/-! ## A step of a worker -/

section Worker

open Prefetcher

variable {p q : Prefetcher ι δ} {rpc : Rpc ι δ} {w w' : Worker ι δ} {index : ℕ}

/-- A height enters when it is claimed and leaves when its worker returns with it. -/
theorem Prefetcher.Worked.moves (hworked : Worked p rpc w w' q) (horderly : w.Orderly)
    (horderly' : w'.Orderly) :
    ∃ lost : Multiset ℕ, (w'.held.toList : Multiset ℕ) + q.inChannel + lost =
        (w.held.toList : Multiset ℕ) + p.inChannel + heightsFrom p.nextHeight q.nextHeight ∧
      (p.workersFinish = false → lost = 0) := by
  cases hworked with
  | claimed inProgress =>
      refine ⟨0, ?_, fun _ => rfl⟩
      rw [heightsFrom_succ le_rfl, heightsFrom_self]
      simp only [Worker.held, inChannel, channelItems, Option.toList, Multiset.coe_nil,
        Multiset.coe_singleton]
      abel
  | told inProgress height hfinish =>
      refine ⟨{height}, ?_, fun hgoing => by simp [hfinish] at hgoing⟩
      simp only [Worker.held, Option.toList, Multiset.coe_nil, Multiset.coe_singleton,
        heightsFrom_self]
      abel
  | sent inProgress height item channel hrx hroom =>
      obtain ⟨-, hheight⟩ : _ ∧ item.block.height = height := horderly
      refine ⟨0, ?_, fun _ => rfl⟩
      simp only [Worker.held, inChannel, channelItems, hrx, Option.toList, Multiset.coe_nil,
        Multiset.coe_singleton, heightsFrom_self, List.map_append, List.map_cons, List.map_nil,
        ← Multiset.coe_add, hheight]
      abel
  | noMinimum | disconnected | unmarked => exact absurd horderly' id
  | _ => exact ⟨0, by simp [Worker.held], fun _ => rfl⟩

theorem Prefetcher.Worked.nextHeight_le (hworked : Worked p rpc w w' q) :
    p.nextHeight ≤ q.nextHeight := by
  cases hworked <;> simp

theorem Generation.worked_claims (g : Generation ι δ) (index : ℕ)
    (hworked : Worked p rpc w w' q) :
    (g.worked p index rpc w).claims = g.claims ++
      (List.range' p.nextHeight (q.nextHeight - p.nextHeight)).map fun height =>
        (index, height) := by
  cases hworked with
  | fetched inProgress height id data prevBlockId hanswer => simp [worked, hanswer]
  | blockGone inProgress height id hanswer => simp [worked, hanswer]
  | blockFailed inProgress height id error hanswer => simp [worked, hanswer]
  | _ => simp [worked]

theorem Generation.worked_start (g : Generation ι δ) :
    (g.worked p index rpc w).start = g.start := by
  unfold worked
  split
  · rfl
  · split <;> rfl
  · rfl

theorem Generation.fetched_subset (g : Generation ι δ) :
    g.fetched ⊆ (g.worked p index rpc w).fetched := by
  unfold worked
  split
  · exact List.Subset.refl _
  · split
    · exact List.subset_append_left _ _
    · exact List.Subset.refl _
  · exact List.Subset.refl _

theorem Prefetcher.Worked.holder (hworked : Worked p rpc w w' q) (g : Generation ι δ)
    (index : ℕ) (height : ℕ) (hheld : w'.held = some height) :
    w.held = some height ∨ (index, height) ∈ (g.worked p index rpc w).claims := by
  rw [g.worked_claims index hworked]
  cases hworked with
  | claimed inProgress =>
      simp only [Worker.held, Option.some.injEq] at hheld
      simp [hheld]
  | told | sent | marked | noMinimum | disconnected | unmarked => cases hheld
  | _ => exact .inl hheld

theorem Prefetcher.Worked.sender (hworked : Worked p rpc w w' q) (g : Generation ι δ)
    (index : ℕ) (item : RpcBlockWithPrevId ι δ) (hsending : w'.sending = some item) :
    item ∈ (g.worked p index rpc w).fetched := by
  cases hworked with
  | fetched inProgress height id data prevBlockId hanswer =>
      simp only [Worker.sending, Option.some.injEq] at hsending
      simp [Generation.worked, hanswer, hsending]
  | _ => simp [Worker.sending] at hsending

theorem Prefetcher.Worked.carried (hworked : Worked p rpc w w' q)
    (item : RpcBlockWithPrevId ι δ) (hmem : item ∈ q.channelItems) :
    item ∈ p.channelItems ∨ w.sending = some item := by
  cases hworked with
  | sent inProgress height sentItem channel hrx hroom =>
      simp only [channelItems, hrx, List.mem_append, List.mem_singleton] at hmem ⊢
      exact hmem.imp id fun heq => by simp [Worker.sending, heq]
  | _ => exact .inl hmem

theorem Prefetcher.Worked.not_returned (hworked : Worked p rpc w w' q)
    (hgoing : p.workersFinish = false) : w'.pc ≠ .returned := by
  cases hworked with
  | told inProgress height hfinish => simp [hgoing] at hfinish
  | _ => simp

theorem Prefetcher.Worked.rx_ne_none (hworked : Worked p rpc w w' q) (hrx : p.rx ≠ none) :
    q.rx ≠ none := by
  cases hworked with
  | sent => simp
  | _ => exact hrx

theorem Prefetcher.Worked.joins (hworked : Worked p rpc w w' q) :
    q.threadJoins = p.threadJoins ∧ q.outOfOrderItems = p.outOfOrderItems := by
  cases hworked <;> exact ⟨rfl, rfl⟩

theorem underWay_set (hget : p.threadJoins[index]? = some w)
    (hworked : Worked p rpc w w' q) {lost : Multiset ℕ} (hmoves : (w'.held.toList : Multiset ℕ) + q.inChannel + lost =
      (w.held.toList : Multiset ℕ) + p.inChannel + heightsFrom p.nextHeight q.nextHeight) :
    ({ q with threadJoins := q.threadJoins.set index w' } : Prefetcher ι δ).underWay + lost =
      p.underWay + heightsFrom p.nextHeight q.nextHeight := by
  obtain ⟨hjoins, haside⟩ := hworked.joins
  have hset := filterMap_set Worker.held w' hget
  have haside' : ({ q with threadJoins := q.threadJoins.set index w' } :
      Prefetcher ι δ).putAside = p.putAside := congrArg (fun m => (m.keys : Multiset ℕ)) haside
  apply add_right_cancel (b := (w.held.toList : Multiset ℕ))
  calc ({ q with threadJoins := q.threadJoins.set index w' } : Prefetcher ι δ).underWay + lost +
        w.held.toList
      = (((p.threadJoins.set index w').filterMap Worker.held : List ℕ) + w.held.toList) +
          q.inChannel + p.putAside + lost := by
        rw [underWay, haside', held, hjoins]
        change _ + q.inChannel + _ + _ + _ = _
        abel
    _ = (p.threadJoins.filterMap Worker.held : List ℕ) +
          ((w'.held.toList : Multiset ℕ) + q.inChannel + lost) + p.putAside := by
        rw [hset]
        abel
    _ = p.underWay + heightsFrom p.nextHeight q.nextHeight + w.held.toList := by
        rw [hmoves, underWay, held]
        abel

end Worker

theorem Partition.work (h : Partition g s) {p : Prefetcher ι δ} {rpc : Rpc ι δ}
    {w w' : Worker ι δ} {index : ℕ} (hget : s.prefetcher.threadJoins[index]? = some w)
    (hworked : Prefetcher.Worked s.prefetcher rpc w w' p) :
    Partition (g.worked s.prefetcher index rpc w)
      { s with prefetcher := { p with threadJoins := p.threadJoins.set index w' } } := by
  have horderly : w.Orderly := h.orderly w (List.mem_of_getElem? hget)
  have horderly' : w'.Orderly := horderly.step h.rx hworked
  have hnext := hworked.nextHeight_le
  obtain ⟨lost, hmoves, hkept⟩ := hworked.moves horderly horderly'
  have hrx := hworked.rx_ne_none h.rx
  have hclaims := g.worked_claims index hworked
  have hholder := hworked.holder g index
  have hsender := hworked.sender g index
  have hcarried := hworked.carried
  have hreturned := hworked.not_returned
  have hunderWay := underWay_set hget hworked hmoves
  obtain ⟨nextHeight, rx, rfl⟩ := hworked.frame
  constructor
  case rx => exact hrx
  case orderly =>
    intro other hmem
    obtain hold | rfl := List.mem_or_eq_of_mem_set hmem
    · exact h.orderly other hold
    · exact horderly'
  case keyed => exact h.keyed
  case told => exact h.told
  case present =>
    intro hgoing other hmem
    obtain hold | rfl := List.mem_or_eq_of_mem_set hmem
    · exact h.present hgoing other hold
    · exact hreturned hgoing
  case claims =>
    have hle : g.start ≤ s.prefetcher.nextHeight := h.started.trans h.claimed
    have happend := List.range'_append_1 (s := g.start) (m := s.prefetcher.nextHeight - g.start)
      (n := nextHeight - s.prefetcher.nextHeight)
    have hlength : s.prefetcher.nextHeight - g.start + (nextHeight - s.prefetcher.nextHeight) =
        nextHeight - g.start := by
      simp only at hnext
      omega
    rw [Nat.add_sub_cancel' hle, hlength] at happend
    rw [hclaims, Generation.worked_start, List.map_append, h.claims, List.map_map]
    exact (congrArg _ (List.map_id _)).trans happend
  case started =>
    rw [Generation.worked_start]
    exact h.started
  case claimed => exact h.claimed.trans hnext
  case split =>
    obtain ⟨discarded, hsplit, hlive⟩ := h.split
    rw [Generation.worked_start]
    refine ⟨lost + discarded, ?_, fun hphase => ?_⟩
    · rw [heightsFrom_add (h.started.trans h.claimed) hnext, ← hsplit]
      have hsum := congrArg (· + heightsFrom g.start s.prefetcher.curHeight + discarded) hunderWay
      simp only at hsum
      rw [add_right_comm _ lost, add_assoc _ lost] at hsum
      rw [hsum]
      abel
    · obtain ⟨htold, hpanic⟩ := Phase.serving_of_serves hphase
      rw [hkept (h.told htold hpanic), hlive hphase, add_zero]
  case holders =>
    intro i other height hother hheld
    have hold : ∀ entry ∈ g.claims, entry ∈ (g.worked s.prefetcher index rpc w).claims := by
      intro entry hmem
      rw [hclaims]
      exact List.mem_append_left _ hmem
    by_cases heq : index = i
    · subst heq
      obtain ⟨hlt, -⟩ := List.getElem?_eq_some_iff.1 hget
      simp only [List.getElem?_set_self hlt, Option.some.injEq] at hother
      subst hother
      obtain hbefore | hclaimed := hholder height hheld
      · exact hold _ (h.holders index w height hget hbefore)
      · exact hclaimed
    · simp only [List.getElem?_set_ne heq] at hother
      exact hold _ (h.holders i other height hother hheld)
  case fetched =>
    intro item hcarries
    obtain ⟨other, hmem, hsending⟩ | hchannel | ⟨height, haside⟩ := hcarries
    · obtain hold | rfl := List.mem_or_eq_of_mem_set hmem
      · exact g.fetched_subset (h.fetched item (.inl ⟨other, hold, hsending⟩))
      · exact hsender item hsending
    · apply g.fetched_subset
      obtain hbefore | hsending := hcarried item hchannel
      · exact h.fetched item (.inr (.inl hbefore))
      · exact h.fetched item (.inl ⟨w, List.mem_of_getElem? hget, hsending⟩)
    · exact g.fetched_subset (h.fetched item (.inr (.inr ⟨height, haside⟩)))

/-! ## A step of the iterator -/

namespace Partition

theorem restarted (threadNum : ℕ) {height : ℕ} {phase : Phase ι}
    {yielded : List (RpcBlockWithPrevId ι δ)} (p : Prefetcher ι δ) :
    Partition (.new height) ⟨p.restarted threadNum height, phase, yielded⟩ where
  rx := by simp [Prefetcher.restarted]
  orderly := by
    intro w hmem
    rw [List.eq_of_mem_replicate hmem]
    exact Worker.orderly_new
  keyed := by simp [Prefetcher.restarted, BTreeMap.get, BTreeMap.empty]
  told := fun _ _ => rfl
  present := by
    intro _ w hmem
    rw [List.eq_of_mem_replicate hmem]
    simp [Worker.new]
  claims := by simp [Prefetcher.restarted, Generation.new]
  started := le_rfl
  claimed := le_rfl
  split := by
    refine ⟨0, ?_, fun _ => rfl⟩
    rw [Prefetcher.underWay_restarted, zero_add, add_zero]
    rfl
  holders := by
    intro index w height hget hheld
    rw [List.eq_of_mem_replicate (List.mem_of_getElem? hget)] at hheld
    cases hheld
  fetched := by
    intro item hcarries
    obtain ⟨w, hmem, hsending⟩ | hchannel | ⟨height, haside⟩ := hcarries
    · rw [List.eq_of_mem_replicate hmem] at hsending
      cases hsending
    · cases hchannel
    · cases haside

/-- A step that only changes the phase, and may tell the workers to stop. -/
theorem turn (h : Partition g s) {phase : Phase ι} (finish : Bool)
    (htold : phase.drains = false → (∀ panic, phase ≠ .panicked panic) → finish = false)
    (hfinish : finish = false → s.prefetcher.workersFinish = false)
    (hserves : phase.serves = true → s.phase.serves = true) :
    Partition g
      { s with prefetcher := { s.prefetcher with workersFinish := finish }, phase := phase } := by
  apply h.consume (p := { s.prefetcher with workersFinish := finish }) h.rx rfl h.keyed htold
    hfinish rfl le_rfl h.claimed
  · refine ⟨0, ?_, fun hphase => ⟨rfl, hserves hphase⟩⟩
    rw [heightsFrom_self, add_zero, add_zero]
    rfl
  · exact fun item hcarries => hcarries

/-- What the iterator has taken is at its height; the rest stays where it was. -/
theorem offered_frame {item : RpcBlockWithPrevId ι δ} {p : Prefetcher ι δ} (h : Partition g s)
    (hoffered : Offered s item p) :
    p.rx ≠ none ∧ p.threadJoins = s.prefetcher.threadJoins ∧
      p.workersFinish = s.prefetcher.workersFinish ∧ p.nextHeight = s.prefetcher.nextHeight ∧
      (∀ other, p.Carries other → s.prefetcher.Carries other) ∧ s.phase.serves = true := by
  cases hoffered with
  | buffered item hphase hget =>
      refine ⟨h.rx, rfl, rfl, rfl, fun other hcarries => ?_, by rw [hphase]; rfl⟩
      obtain hsending | hchannel | ⟨height, haside⟩ := hcarries
      · exact .inl hsending
      · exact .inr (.inl hchannel)
      · rw [BTreeMap.get_eq_some_iff, BTreeMap.mem_entries_remove] at haside
        exact .inr (.inr ⟨height, BTreeMap.get_eq_some_iff.2 haside.1⟩)
  | received channel item items hphase hrx hitems hheight =>
      refine ⟨by simp, rfl, rfl, rfl, fun other hcarries => ?_, by rw [hphase]; rfl⟩
      obtain hsending | hchannel | haside := hcarries
      · exact .inl hsending
      · refine .inr (.inl ?_)
        rw [Prefetcher.channelItems, hrx]
        simp only [hitems]
        exact List.mem_cons_of_mem _ hchannel
      · exact .inr (.inr haside)

/-- The block waited for is taken; the iterator moves on or discards it. -/
theorem take (h : Partition g s) {item : RpcBlockWithPrevId ι δ} {p q : Prefetcher ι δ}
    {phase : Phase ι} {yielded : List (RpcBlockWithPrevId ι δ)} (hoffered : Offered s item p)
    (hq : ∃ prevHashes curHeight,
      q = { p with prevHashes := prevHashes, curHeight := curHeight } ∧
        (curHeight = p.curHeight ∧ phase.serves = false ∨ curHeight = p.curHeight + 1)) :
    Partition g ⟨q, phase, yielded⟩ := by
  obtain ⟨hcur, -⟩ := hoffered.frame
  obtain ⟨hrx, hjoins, hfinish, hnext, hcarries, hserves⟩ := h.offered_frame hoffered
  have hunderWay := hoffered.underWay
  have hclaimed : s.prefetcher.curHeight < s.prefetcher.nextHeight := by
    have hmem : s.prefetcher.curHeight ∈ s.prefetcher.underWay := by
      rw [hunderWay]
      exact Multiset.mem_add.2 (.inr (Multiset.mem_singleton_self _))
    exact (h.ahead hmem).2
  obtain ⟨htold, hpanic⟩ := Phase.serving_of_serves hserves
  obtain ⟨prevHashes, curHeight, rfl, hwhere⟩ := hq
  have hsame : ({ p with prevHashes := prevHashes, curHeight := curHeight } :
      Prefetcher ι δ).underWay = p.underWay := rfl
  apply h.consume (p := { p with prevHashes := prevHashes, curHeight := curHeight }) hrx hjoins
    (fun height other hget => h.keyed height other (hoffered.outOfOrderItems hget))
    (fun _ _ => hfinish.trans (h.told htold hpanic)) (fun _ => h.told htold hpanic) hnext
  · obtain ⟨rfl, -⟩ | rfl := hwhere <;> simp only [hcur] <;> omega
  · simp only [hnext]
    obtain ⟨rfl, -⟩ | rfl := hwhere <;> omega
  · rw [hsame, hunderWay]
    obtain ⟨rfl, hstop⟩ | rfl := hwhere
    · refine ⟨{s.prefetcher.curHeight}, ?_, fun hphase => by rw [hstop] at hphase; cases hphase⟩
      simp only [hcur, heightsFrom_self, add_zero]
    · refine ⟨0, ?_, fun _ => ⟨rfl, hserves⟩⟩
      simp only [hcur, heightsFrom_succ le_rfl, heightsFrom_self, zero_add, add_zero]
  · exact hcarries

theorem set_aside (h : Partition g s) {channel : Channel ι δ} {item : RpcBlockWithPrevId ι δ}
    {items : List (RpcBlockWithPrevId ι δ)} (hphase : s.phase = .receive)
    (hrx : s.prefetcher.rx = some channel) (hitems : channel.items = item :: items) :
    Partition g { s with prefetcher := { s.prefetcher with
      rx := some { channel with items := items }
      outOfOrderItems := s.prefetcher.outOfOrderItems.insert item.block.height item } } := by
  have hchannel := Prefetcher.channelItems_of_rx hrx hitems
  have hmem : item ∈ s.prefetcher.channelItems := by simp [hchannel]
  have hfresh := h.not_putAside hmem
  have hperm := Multiset.coe_eq_coe.2
    (BTreeMap.keys_insert_perm item (BTreeMap.get_eq_none_iff.1 hfresh))
  have hfinish := h.told (by rw [hphase]; rfl) (by simp [hphase])
  apply h.consume (p := { s.prefetcher with
    rx := some { channel with items := items }
    outOfOrderItems := s.prefetcher.outOfOrderItems.insert item.block.height item })
    (by simp) rfl _ (fun _ _ => hfinish) (fun _ => hfinish) rfl le_rfl h.claimed
  · refine ⟨0, ?_, fun _ => ⟨rfl, by rw [hphase]; rfl⟩⟩
    simp only [Prefetcher.underWay, Prefetcher.held, Prefetcher.inChannel, Prefetcher.putAside,
      hchannel, heightsFrom_self, hperm]
    simp only [Prefetcher.channelItems, List.map_cons, ← Multiset.cons_coe,
      ← Multiset.singleton_add]
    abel
  · intro other hcarries
    obtain hsending | hin | ⟨height, haside⟩ := hcarries
    · exact .inl hsending
    · refine .inr (.inl ?_)
      rw [hchannel]
      exact List.mem_cons_of_mem _ hin
    · rw [BTreeMap.get_eq_some_iff, BTreeMap.mem_entries_insert] at haside
      obtain heq | ⟨hold, -⟩ := haside
      · obtain ⟨-, rfl⟩ := Prod.mk.inj heq
        exact .inr (.inl (by simp [hchannel]))
      · exact .inr (.inr ⟨height, BTreeMap.get_eq_some_iff.2 hold⟩)
  · intro height other haside
    rw [BTreeMap.get_eq_some_iff, BTreeMap.mem_entries_insert] at haside
    obtain heq | ⟨hold, -⟩ := haside
    · obtain ⟨rfl, rfl⟩ := Prod.mk.inj heq
      rfl
    · exact h.keyed height other (BTreeMap.get_eq_some_iff.2 hold)

theorem drain (h : Partition g s) {channel : Channel ι δ} {item : RpcBlockWithPrevId ι δ}
    {items : List (RpcBlockWithPrevId ι δ)} {stop : Stop} (hphase : s.phase = .drain stop)
    (hrx : s.prefetcher.rx = some channel) (hitems : channel.items = item :: items) :
    Partition g { s with prefetcher := { s.prefetcher with
      rx := some { channel with items := items } } } := by
  have hchannel := Prefetcher.channelItems_of_rx hrx hitems
  apply h.consume (p := { s.prefetcher with rx := some { channel with items := items } })
    (by simp) rfl h.keyed h.told id rfl le_rfl h.claimed
  · refine ⟨{item.block.height}, ?_, fun hserves => by rw [hphase] at hserves; cases hserves⟩
    simp only [Prefetcher.underWay, Prefetcher.held, Prefetcher.inChannel, Prefetcher.putAside,
      hchannel, heightsFrom_self]
    simp only [Prefetcher.channelItems, List.map_cons, ← Multiset.cons_coe,
      ← Multiset.singleton_add]
    abel
  · intro other hcarries
    obtain hsending | hin | haside := hcarries
    · exact .inl hsending
    · refine .inr (.inl ?_)
      rw [hchannel]
      exact List.mem_cons_of_mem _ hin
    · exact .inr (.inr haside)

variable [DecidableEq ι]

/-- A step of the caller or of the iterator. -/
theorem iterate (h : Partition g s) {event : Event ι δ} {after : State ι δ}
    (hevent : ∀ index rpc, event ≠ .worker index rpc) (htransition : Transition s event after) :
    Partition (if restarts s after then .new after.prefetcher.curHeight else g) after := by
  cases htransition with
  | stay =>
      have hsame : restarts s s = false := by
        unfold restarts
        split <;> simp_all
      rw [hsame]
      exact h
  | worked index rpc w w' p hget hstep => exact absurd rfl (hevent index rpc)
  | fastSyncEnded hphase hend =>
      rw [restarts_eq_false (.inr (by simp))]
      exact h.turn s.prefetcher.workersFinish (fun _ _ => h.told (by rw [hphase]; rfl)
        (by simp [hphase])) id fun _ => by rw [hphase]; rfl
  | asked hphase hend =>
      rw [restarts_eq_false (.inl (by simp [hphase, Phase.drains]))]
      exact h.turn s.prefetcher.workersFinish (fun _ _ => h.told (by rw [hphase]; rfl)
        (by simp [hphase])) id fun _ => by rw [hphase]; rfl
  | notBuffered hphase hget =>
      rw [restarts_eq_false (.inr (by simp))]
      exact h.turn s.prefetcher.workersFinish (fun _ _ => h.told (by rw [hphase]; rfl)
        (by simp [hphase])) id fun _ => by rw [hphase]; rfl
  | yielded item p q hoffered htrack =>
      rw [restarts_eq_false (.inr (by simp))]
      obtain ⟨-, ⟨-, -, rfl, -⟩ | ⟨hfalse, -⟩⟩ := Prefetcher.trackReorgs_eq_ok htrack
      · exact h.take hoffered ⟨_, _, rfl, .inr rfl⟩
      · cases hfalse
  | reorgFound item p hoffered htrack =>
      rw [restarts_eq_false (.inr (by simp))]
      exact h.take hoffered ⟨p.prevHashes, _, rfl, .inl ⟨rfl, rfl⟩⟩
  | trackPanicked item p panic hoffered htrack =>
      rw [restarts_eq_false (.inr (by simp))]
      exact h.take hoffered ⟨p.prevHashes, _, rfl, .inl ⟨rfl, rfl⟩⟩
  | putAside channel item items hphase hrx hitems hheight =>
      rw [restarts_eq_false (.inl (by simp [hphase, Phase.drains]))]
      exact h.set_aside hphase hrx hitems
  | belowCurrent channel item items hphase hrx hitems hheight =>
      have hmem : item ∈ s.prefetcher.channelItems := by
        simp [Prefetcher.channelItems, hrx, hitems]
      have hahead := h.ahead (channel_underWay hmem)
      omega
  | disconnected channel hphase hrx hitems hended =>
      rw [restarts_eq_false (.inr (by simp))]
      exact h.turn s.prefetcher.workersFinish (fun _ hpanic => absurd rfl (hpanic _)) id
        fun hserves => by cases hserves
  | rxMissing panic hrx => exact absurd hrx h.rx
  | finished stop hphase =>
      rw [restarts_eq_false (.inr (by simp))]
      exact h.turn true (fun hdrains => by cases hdrains) (fun hfalse => by cases hfalse)
        fun hserves => by cases hserves
  | drained stop channel item items hphase hrx hitems =>
      rw [restarts_eq_false (.inr (by simp [hphase]))]
      exact h.drain hphase hrx hitems
  | fastSyncRestart channel hphase hrx hitems hended =>
      rw [if_pos (by simp [restarts, hphase])]
      exact restarted _ s.prefetcher
  | reorgRestart channel hphase hrx hitems hended hpos =>
      rw [if_pos (by simp [restarts, hphase])]
      exact restarted _ s.prefetcher
  | resetAtZero channel hphase hrx hitems hzero =>
      rw [restarts_eq_false (.inr (by simp))]
      exact h.turn s.prefetcher.workersFinish (fun _ hpanic => absurd rfl (hpanic _)) id
        fun hserves => by cases hserves

end Partition

/-- The iterator has not panicked over a height or over its channel. -/
def Phase.inOrder : Phase ι → Prop
  | .panicked (.heightBelowCurrent _) | .panicked (.wrongHeight _)
  | .panicked .rxNotAvailable | .panicked .stopBeforeStart
  | .panicked .startWorkersTwice => False
  | _ => True

/-- A worker that waits adds nothing. -/
theorem Generation.worked_waiting {p : Prefetcher ι δ} {index : ℕ} {rpc : Rpc ι δ}
    {w : Worker ι δ} (hstep : p.workerStep rpc w = none) : g.worked p index rpc w = g := by
  obtain ⟨inProgress, pc⟩ := w
  cases pc with
  | fetchAdd => cases hstep
  | getBlock height id =>
      simp only [Prefetcher.workerStep] at hstep
      split at hstep <;> cases hstep
  | _ => rfl

theorem Watched.inv_new (threadNum count : ℕ) (start : Option (WithHeightAndId ι Unit)) :
    let watched : Watched ι δ := .new threadNum count start
    Partition watched.generation watched.state ∧ watched.state.phase.inOrder := by
  refine ⟨?_, trivial⟩
  exact Partition.restarted threadNum _

section

variable [DecidableEq ι]

theorem Transition.inOrder {event : Event ι δ} {after : State ι δ} (h : Partition g s)
    (hphase : s.phase.inOrder) (htransition : Transition s event after) : after.phase.inOrder := by
  cases htransition with
  | stay | worked | putAside | drained => exact hphase
  | rxMissing panic hrx => exact absurd hrx h.rx
  | belowCurrent channel item items hreceive hrx hitems hheight =>
      have hmem : item ∈ s.prefetcher.channelItems := by
        simp [Prefetcher.channelItems, hrx, hitems]
      have hahead := h.ahead (Partition.channel_underWay hmem)
      omega
  | trackPanicked item p panic hoffered htrack =>
      have hheight := (h.offered_height hoffered).trans hoffered.frame.1.symm
      obtain ⟨rfl, -⟩ | ⟨-, -, ⟨rfl, -⟩ | rfl | ⟨_, rfl⟩⟩ :=
        Prefetcher.trackReorgs_eq_error hheight htrack <;> exact trivial
  | _ => exact trivial

theorem restarts_worker (index : ℕ) (rpc : Rpc ι δ) :
    restarts s (s.step (.worker index rpc)) = false := by
  have hphase : (s.step (.worker index rpc)).phase = s.phase := by
    unfold State.step
    cases hstep : s.step? (.worker index rpc) with
    | none => rfl
    | some after =>
        cases transition_workStep hstep <;> rfl
  unfold restarts
  rw [hphase]
  split <;> simp_all

theorem Watched.inv_step (watched : Watched ι δ) (event : Event ι δ)
    (h : Partition watched.generation watched.state) :
    Partition (watched.step event).generation (watched.step event).state := by
  cases event with
  | next => exact h.iterate (by simp) (transition_step watched.state .next)
  | consumer => exact h.iterate (by simp) (transition_step watched.state .consumer)
  | worker index rpc =>
      simp only [Watched.step, restarts_worker, Bool.false_eq_true, if_false]
      cases hget : watched.state.prefetcher.threadJoins[index]? with
      | none =>
          rw [step_worker_none rpc hget]
          exact h
      | some w =>
          cases hstep : watched.state.prefetcher.workerStep rpc w with
          | none =>
              simp only [step_worker_waiting hget hstep, Generation.worked_waiting hstep]
              exact h
          | some result =>
              rw [step_worker hget hstep]
              exact h.work hget (Prefetcher.worked_of_workerStep hstep)

theorem Watched.inv_run {watched : Watched ι δ} (events : List (Event ι δ))
    (h : Partition watched.generation watched.state) (hphase : watched.state.phase.inOrder) :
    Partition (watched.run events).generation (watched.run events).state ∧
      (watched.run events).state.phase.inOrder := by
  induction events generalizing watched with
  | nil => exact ⟨h, hphase⟩
  | cons event events ih =>
      exact ih (watched.inv_step event h)
        ((transition_step watched.state event).inOrder h hphase)

end

/-- While the workers are not being stopped, the height waited for is with a worker, in
the channel or put aside, or it is the next one to be claimed. -/
theorem Partition.not_lost (h : Partition g s) (hserves : s.phase.serves = true) :
    s.prefetcher.curHeight ∈ s.prefetcher.underWay ∨
      s.prefetcher.nextHeight = s.prefetcher.curHeight := by
  obtain ⟨discarded, hsplit, hlive⟩ := h.split
  by_cases heq : s.prefetcher.nextHeight = s.prefetcher.curHeight
  · exact .inr heq
  have hclaimed := h.claimed
  have hmem : s.prefetcher.curHeight ∈ heightsFrom g.start s.prefetcher.nextHeight :=
    mem_heightsFrom.2 ⟨h.started, by omega⟩
  rw [← hsplit, hlive hserves, add_zero, Multiset.mem_add, mem_heightsFrom] at hmem
  obtain hunderWay | ⟨-, hlt⟩ := hmem
  · exact .inl hunderWay
  · omega

theorem Partition.offered_fetched (h : Partition g s) {item : RpcBlockWithPrevId ι δ}
    {p : Prefetcher ι δ} (hoffered : Offered s item p) : item ∈ g.fetched := by
  apply h.fetched
  cases hoffered with
  | buffered item hphase hget => exact .inr (.inr ⟨_, hget⟩)
  | received channel item items hphase hrx hitems hheight =>
      exact .inr (.inl (by simp [Prefetcher.channelItems, hrx, hitems]))

/-- In every generation of workers: the heights claimed are those from its start on, each
claimed once; while it is not being stopped, each is held by the worker that claimed it,
in the channel, put aside or consumed, and nowhere twice.  So no height is lost, no
block comes below the height waited for or over one put aside, and nothing reaches the
iterator but what this generation has fetched. -/
theorem heights_fetched_once [DecidableEq ι] (threadNum count : ℕ)
    (start : Option (WithHeightAndId ι Unit)) (events : List (Event ι δ)) :
    let watched := (Watched.new threadNum count start).run events
    let s := (State.new threadNum count start).run events
    let p := s.prefetcher
    let g := watched.generation
    watched.state = s ∧
    g.claims.map Prod.snd = List.range' g.start (p.nextHeight - g.start) ∧
    (∀ index w height, p.threadJoins[index]? = some w → w.held = some height →
      (index, height) ∈ g.claims) ∧
    (s.phase.serves = true → p.held + p.inChannel + p.putAside + heightsFrom g.start p.curHeight =
      heightsFrom g.start p.nextHeight) ∧
    (s.phase.serves = true → p.curHeight ∈ p.held + p.inChannel + p.putAside ∨
      p.nextHeight = p.curHeight) ∧
    s.phase.inOrder ∧
    (∀ item ∈ p.channelItems, p.outOfOrderItems.get item.block.height = none) ∧
    (∀ item q, Offered s item q → item.block.height = p.curHeight ∧ item ∈ g.fetched) ∧
    (∀ item, p.Carries item → item ∈ g.fetched) ∧
    ∀ w ∈ p.threadJoins, w.pc ≠ .panicked := by
  obtain ⟨hnew, hphase⟩ := Watched.inv_new (δ := δ) threadNum count start
  obtain ⟨h, hinOrder⟩ := Watched.inv_run events hnew hphase
  have hstate := Watched.state_run (Watched.new threadNum count start) events
  rw [hstate] at h hinOrder
  refine ⟨hstate, h.claims, h.holders, fun hserves => ?_, h.not_lost, hinOrder,
    fun item => h.not_putAside, fun item q hoffered => ?_, h.fetched, fun w hmem hpanicked => ?_⟩
  · obtain ⟨discarded, hsplit, hlive⟩ := h.split
    rw [hlive hserves, add_zero] at hsplit
    exact hsplit
  · exact ⟨h.offered_height hoffered, h.offered_fetched hoffered⟩
  · have horderly := h.orderly w hmem
    rw [Worker.Orderly, hpanicked] at horderly
    exact horderly

end BitcoinIndexer.Node
