import BitcoinIndexer.Node.Fetcher

/-!
# Where the fetcher ends

Without an end of its own the fetcher asks for the block count when a block is above the
last count it has read, so the block at that count is not looked at again.  It ends at
the head of a chain exactly where the head has grown past each count it read before.
-/

namespace BitcoinIndexer.Node

open BitcoinIndexer.ReferenceChain
open BitcoinIndexer.OrderedMap
open BitcoinIndexer.FairRuns

variable {ι δ : Type} [DecidableEq ι]

/-! ## On a growing chain -/

/-- If the node answers with a block count, it is `head`. -/
def FetcherEvent.counts (head : ℕ) : FetcherEvent ι δ → Prop
  | .fetcher rpc => ∀ blockCount, rpc.getBlockCount = .ok blockCount → blockCount = head
  | .next | .worker _ _ => True

/-- A call has returned `item`. -/
def Returns (before after : Fetcher ι δ) (item : WithHeightAndId ι δ) : Prop :=
  after.returned = before.returned ++ [some item]

/-- After the block returned the fetcher is at its end exactly if the block is at the head. -/
def EndsRight (head : ℕ) (before after : Fetcher ι δ) : Prop :=
  ∀ item, Returns before after item → (after.ended = true ↔ head ≤ item.height)

/-- If the block returned is at the count read last, at 0 before any is read, then the
chain has grown above it. -/
def Outgrown (head : ℕ) (before after : Fetcher ι δ) : Prop :=
  ∀ item, Returns before after item → item.height = before.cachedNodeBlockCount.getD 0 →
    item.height < head

/-- The counts read are not above the head, and a block that is counted is above them. -/
structure Counting (head : ℕ) (f : Fetcher ι δ) : Prop where
  endless : f.endHeight = none
  read : f.cachedNodeBlockCount.getD 0 ≤ head
  above : ∀ item, f.pc = .counting item → f.cachedNodeBlockCount.getD 0 < item.height
  going : f.pc ≠ .outside → f.ended = false

variable {f : Fetcher ι δ} {head : ℕ}

theorem Counting.step (h : Counting head f) {event : FetcherEvent ι δ}
    (hcounts : event.counts head) : Counting head (f.step event) := by
  have hfetched := fetched_step f event
  generalize f.step event = stepped at hfetched
  cases hfetched with
  | busy | idle | failed => exact h
  | finished hpc hended => exact ⟨h.endless, h.read, h.above, h.going⟩
  | asked hpc hended => exact ⟨h.endless, h.read, by simp, fun _ => hended⟩
  | waited rpc hpc => exact ⟨h.endless, h.read, h.above, h.going⟩
  | reached rpc item endHeight hpc hitem hend =>
      rw [h.endless] at hend
      cases hend
  | above rpc item hpc hitem hend habove =>
      refine ⟨h.endless, h.read, fun other hother => ?_, fun _ => h.going (by simp [hpc])⟩
      cases hother
      exact habove
  | below => exact ⟨h.endless, h.read, by simp [Fetcher.give], by simp [Fetcher.give]⟩
  | counted rpc item blockCount hpc hanswer =>
      have hhead := hcounts blockCount hanswer
      exact ⟨h.endless, hhead.le, by simp [Fetcher.give], by simp [Fetcher.give]⟩
  | worked => exact ⟨h.endless, h.read, h.above, h.going⟩

/-- The block at the count read last is the only one that can be missed. -/
theorem Counting.endsRight_iff (h : Counting head f) {event : FetcherEvent ι δ}
    (hcounts : event.counts head) :
    EndsRight head f (f.step event) ↔ Outgrown head f (f.step event) := by
  have hfetched := fetched_step f event
  generalize f.step event = stepped at hfetched
  have hquiet : ∀ {after : Fetcher ι δ}, (∀ item, ¬ Returns f after item) →
      (EndsRight head f after ↔ Outgrown head f after) := fun hnot =>
    iff_of_true (fun item hreturns => absurd hreturns (hnot item))
      fun item hreturns => absurd hreturns (hnot item)
  cases hfetched with
  | busy | idle | failed | asked | waited | worked | above =>
      exact hquiet fun item => by simp [Returns]
  | finished hpc hended => exact hquiet fun item => by simp [Returns]
  | reached rpc item endHeight hpc hitem hend =>
      rw [h.endless] at hend
      cases hend
  | below rpc item hpc hitem hend hbelow =>
      have hgoing := h.going (by simp [hpc])
      have hread := h.read
      constructor
      · intro hright other hother _
        have hiff := hright other hother
        simp only [Fetcher.give, hgoing, Bool.false_eq_true, false_iff, not_le] at hiff
        exact hiff
      · intro houtgrown other hother
        have hsame : item.block = other := by simpa [Returns, Fetcher.give] using hother
        have hgrown := houtgrown other hother
        subst hsame
        simp only [Fetcher.give, hgoing, Bool.false_eq_true, false_iff, not_le]
        omega
  | counted rpc item blockCount hpc hanswer =>
      have hhead := hcounts blockCount hanswer
      have habove := h.above item hpc
      have hgoing := h.going (by simp [hpc])
      refine iff_of_true (fun other hother => ?_) fun other hother heq => ?_
      · have hsame : item = other := by simpa [Returns, Fetcher.give] using hother
        simp [Fetcher.give, hgoing, hhead, hsame]
      · have hsame : item = other := by simpa [Returns, Fetcher.give] using hother
        rw [hsame] at habove
        omega

omit [DecidableEq ι] in
theorem Counting.mono (h : Counting head f) {later : ℕ} (hle : head ≤ later) : Counting later f :=
  ⟨h.endless, h.read.trans hle, h.above, h.going⟩

theorem counting_runTo {heads : ℕ → ℕ} (hgrows : Monotone heads) {events : ℕ → FetcherEvent ι δ}
    (hcounts : ∀ time, (events time).counts (heads time)) (h : Counting (heads 0) f) (time : ℕ) :
    Counting (heads time) (runTo Fetcher.step f events time) := by
  induction time with
  | zero => exact h
  | succ time ih => exact (ih.step (hcounts time)).mono (hgrows (Nat.le_succ time))

omit [DecidableEq ι] in
theorem counting_new (threadNum count : ℕ) (start : Option (WithHeightAndId ι Unit)) (head : ℕ) :
    Counting head (.new threadNum count start none : Fetcher ι δ) :=
  ⟨rfl, Nat.zero_le _, by simp [Fetcher.new], by simp [Fetcher.new]⟩

/-! ## On a fixed chain -/

section Fixed

/-- The height of the first block. -/
def firstHeight (start : Option (WithHeightAndId ι Unit)) : ℕ :=
  match start with
  | some last => last.height + 1
  | none => 0

/-- The start is a block of the chain, and not the last one. -/
structure StartsOn (blocks : List (RpcBlockWithPrevId ι δ))
    (start : Option (WithHeightAndId ι Unit)) : Prop where
  below : firstHeight start < blocks.length
  block : ∀ last, start = some last → ∃ item, blocks[last.height]? = some item ∧
    item.block.id = last.id

/-- The fetcher returns the blocks from `first` on and then `None`, and never waits for a
block above the chain. -/
def EndsAtHead (blocks : List (RpcBlockWithPrevId ι δ)) (first : ℕ) (run : ℕ → Fetcher ι δ) : Prop :=
  (∃ time, (run time).returned = (blocks.drop first).map (fun item => some item.block) ++ [none]) ∧
    ∀ time, (run time).pc = .fetching → (run time).prefetcher.prefetcher.curHeight < blocks.length

variable {start : Option (WithHeightAndId ι Unit)} {blocks : List (RpcBlockWithPrevId ι δ)}
variable {hashes : BTreeMap ℕ ι} {first resets : ℕ} {s : State ι δ}

omit [DecidableEq ι]

/-- Without a reorg the blocks from `first` on are yielded. -/
theorem Converging.exists_count (h : Converging start blocks [] hashes first first resets s)
    (hfirst : first < blocks.length) :
    s.yielded = (blocks.drop first).take s.yielded.length ∧
      s.prefetcher.curHeight = first + s.yielded.length ∧
        first + s.yielded.length ≤ blocks.length := by
  cases h.course with
  | descending hyielded hhashes hfork hresets =>
      have hle := hfork.trans awaited_le
      simp only [hyielded, List.length_nil, List.take_zero, Nat.add_zero, true_and]
      omega
  | ascending count hpos hyielded hcur hle hphase hagrees hresets =>
      rw [List.nil_append] at hyielded
      have hlength : s.yielded.length = count := by
        rw [hyielded, List.length_take, List.length_drop]
        omega
      exact ⟨hlength.symm ▸ hyielded, by rw [hlength, hcur], by omega⟩

/-- The height of the last block yielded. -/
theorem Converging.height_last (h : Converging start blocks [] hashes first first resets s)
    (hextends : Extends [] blocks) (hfirst : first < blocks.length)
    {before : List (RpcBlockWithPrevId ι δ)} {item : RpcBlockWithPrevId ι δ}
    (hyielded : s.yielded = before ++ [item]) : item.block.height = first + before.length := by
  obtain ⟨htaken, -⟩ := h.exists_count hfirst
  have hget : s.yielded[before.length]? = some item := by
    rw [hyielded]
    exact List.getElem?_concat_length
  rw [htaken, List.getElem?_take, List.getElem?_drop] at hget
  split at hget
  · have hheight := hextends.height_eq hget
    simpa using hheight
  · cases hget

/-- The blocks the calls have returned. -/
def Fetcher.handed (f : Fetcher ι δ) : List (WithHeightAndId ι δ) :=
  match f.pc with
  | .counting _ => (f.prefetcher.yielded.map (·.block)).dropLast
  | _ => f.prefetcher.yielded.map (·.block)

/-- What holds while the fetcher follows a fixed chain.  The count is read once, at the
first block above height 0, and the fetcher ends only if that block is the last one. -/
structure AlongChain (start : Option (WithHeightAndId ι Unit))
    (blocks : List (RpcBlockWithPrevId ι δ)) (hashes : BTreeMap ℕ ι) (first : ℕ)
    (f : Fetcher ι δ) : Prop where
  converging : ∃ resets, Converging start blocks [] hashes first first resets f.prefetcher
  endless : f.endHeight = none
  phase : f.pc = .fetching ↔ f.prefetcher.phase ≠ .idle
  going : f.ended = true → f.pc = .outside
  returned : ∃ calls, f.returned = f.handed.map some ++ List.replicate calls none ∧
    (0 < calls → f.ended = true)
  counting : ∀ item, f.pc = .counting item →
    (∃ before last, f.prefetcher.yielded = before ++ [last] ∧ last.block = item) ∧
      f.cachedNodeBlockCount = none ∧ item.height = max first 1
  unread : f.cachedNodeBlockCount = none → (∀ item, f.pc ≠ .counting item) →
    f.prefetcher.yielded.length = 0 ∨ first + f.prefetcher.yielded.length ≤ 1
  read : ∀ blockCount, f.cachedNodeBlockCount = some blockCount →
    blockCount + 1 = blocks.length ∧ max first 1 < first + f.prefetcher.yielded.length
  head : f.ended = true → blocks.length = max first 1 + 1 ∧
    blocks.length ≤ first + f.prefetcher.yielded.length
  last : blocks.length = max first 1 + 1 → first + f.prefetcher.yielded.length = blocks.length →
    f.pc = .outside → f.ended = true
  early : blocks.length = max first 1 + 1 → f.pc = .fetching →
    first + f.prefetcher.yielded.length < blocks.length

end Fixed

/-! ## The thread in `next` of the prefetcher -/

theorem consumer_step (s : State ι δ) :
    ((s.step .consumer).yielded = s.yielded ∧
        ((s.step .consumer).phase = .idle → s.phase = .idle)) ∨
      ∃ item, (s.step .consumer).yielded = s.yielded ++ [item] ∧
        (s.step .consumer).phase = .idle := by
  have htransition := transition_step s .consumer
  generalize s.step .consumer = stepped at htransition
  cases htransition with
  | yielded item p q hoffered htrack => exact .inr ⟨item, rfl, rfl⟩
  | stay | putAside | drained => exact .inl ⟨rfl, id⟩
  | _ => exact .inl ⟨rfl, fun hphase => by simp at hphase⟩

theorem next_step {s : State ι δ} (hidle : s.phase = .idle) :
    (s.step .next).yielded = s.yielded ∧ (s.step .next).phase ≠ .idle := by
  simp only [State.step, State.step?, State.callNext, hidle]
  split <;> simp

theorem worker_step (s : State ι δ) (index : ℕ) (rpc : Rpc ι δ) :
    (s.step (.worker index rpc)).yielded = s.yielded ∧
      (s.step (.worker index rpc)).phase = s.phase := by
  have htransition := transition_step s (.worker index rpc)
  generalize s.step (.worker index rpc) = stepped at htransition
  cases htransition <;> exact ⟨rfl, rfl⟩

/-- What the thread got from the prefetcher in a step. -/
theorem consumer_step_of_get {s : State ι δ} {item : RpcBlockWithPrevId ι δ}
    (hitem : (s.step .consumer).yielded[s.yielded.length]? = some item) :
    (s.step .consumer).yielded = s.yielded ++ [item] ∧ (s.step .consumer).phase = .idle := by
  obtain ⟨hsame, -⟩ | ⟨other, hyielded, hidle⟩ := consumer_step s
  · rw [hsame, List.getElem?_eq_none le_rfl] at hitem
    cases hitem
  · rw [hyielded, List.getElem?_concat_length, Option.some.injEq] at hitem
    rw [← hitem]
    exact ⟨hyielded, hidle⟩

theorem consumer_step_of_none {s : State ι δ}
    (hnone : (s.step .consumer).yielded[s.yielded.length]? = none) :
    (s.step .consumer).yielded = s.yielded ∧ ((s.step .consumer).phase = .idle → s.phase = .idle) := by
  obtain hsame | ⟨other, hyielded, -⟩ := consumer_step s
  · exact hsame
  · rw [hyielded, List.getElem?_concat_length] at hnone
    cases hnone

/-! ## The fetcher on a fixed chain -/

/-- The node serves `blocks`, or answers with an error. -/
def FetcherEvent.onChain (blocks : List (RpcBlockWithPrevId ι δ)) : FetcherEvent ι δ → Prop
  | .next => True
  | .fetcher rpc => ∀ blockCount, rpc.getBlockCount = .ok blockCount → blockCount + 1 = blocks.length
  | .worker _ rpc => Serves blocks rpc

variable {start : Option (WithHeightAndId ι Unit)} {blocks : List (RpcBlockWithPrevId ι δ)}
variable {hashes : BTreeMap ℕ ι} {first : ℕ}

namespace AlongChain

omit [DecidableEq ι] in
/-- Outside of `next` and before the end no call has returned `None`. -/
theorem returned_of_going (h : AlongChain start blocks hashes first f) (hgoing : f.ended = false) :
    f.returned = f.handed.map some := by
  obtain ⟨calls, hreturned, hnone⟩ := h.returned
  obtain rfl | hpos := Nat.eq_zero_or_pos calls
  · simpa using hreturned
  · rw [hnone hpos] at hgoing
    cases hgoing

omit [DecidableEq ι] in
theorem not_ended (h : AlongChain start blocks hashes first f) (hpc : f.pc ≠ .outside) :
    f.ended = false := by
  rw [← Bool.not_eq_true]
  exact fun hended => hpc (h.going hended)

omit [DecidableEq ι] in
/-- A step of the prefetcher that yields nothing. -/
theorem quiet (h : AlongChain start blocks hashes first f) {p : State ι δ}
    (hconverging : ∃ resets, Converging start blocks [] hashes first first resets p)
    (hyielded : p.yielded = f.prefetcher.yielded)
    (hphase : p.phase = .idle ↔ f.prefetcher.phase = .idle) :
    AlongChain start blocks hashes first { f with prefetcher := p } where
  converging := hconverging
  endless := h.endless
  phase := h.phase.trans (not_congr hphase.symm)
  going := h.going
  returned := by
    have hhanded : ({ f with prefetcher := p } : Fetcher ι δ).handed = f.handed := by
      simp only [Fetcher.handed, hyielded]
    rw [hhanded]
    exact h.returned
  counting := by
    simp only [hyielded]
    exact h.counting
  unread := by
    simp only [hyielded]
    exact h.unread
  read := by
    simp only [hyielded]
    exact h.read
  head := by
    simp only [hyielded]
    exact h.head
  last := by
    simp only [hyielded]
    exact h.last
  early := by
    simp only [hyielded]
    exact h.early

theorem ask (h : AlongChain start blocks hashes first f) (hdescent : Descent blocks hashes first first)
    (hpc : f.pc = .outside) (hended : f.ended = false) :
    AlongChain start blocks hashes first
      { f with prefetcher := f.prefetcher.step .next, pc := .fetching } := by
  have hidle : f.prefetcher.phase = .idle := by
    by_contra hbusy
    rw [h.phase.2 hbusy] at hpc
    cases hpc
  obtain ⟨hyielded, hbusy⟩ := next_step hidle
  obtain ⟨resets, hconverging⟩ := h.converging
  obtain ⟨-, -, hle⟩ := hconverging.exists_count hdescent.top_lt
  constructor
  case converging => exact ⟨_, hconverging.step hdescent .next trivial⟩
  case endless => exact h.endless
  case phase => exact iff_of_true rfl hbusy
  case going => simp [hended]
  case returned =>
    refine ⟨0, ?_, by simp⟩
    have hreturned := h.returned_of_going hended
    simpa [Fetcher.handed, hyielded, hpc] using hreturned
  case counting => simp
  case unread =>
    intro hnone _
    simp only [hyielded]
    exact h.unread hnone (by simp [hpc])
  case read =>
    simp only [hyielded]
    exact h.read
  case head => simp [hended]
  case last => simp
  case early =>
    intro hhead _
    simp only [hyielded]
    refine lt_of_le_of_ne hle fun hall => ?_
    rw [h.last hhead hall hpc] at hended
    cases hended

theorem look (h : AlongChain start blocks hashes first f) (hdescent : Descent blocks hashes first first)
    (hpc : f.pc = .fetching) {item : RpcBlockWithPrevId ι δ}
    (hitem : (f.prefetcher.step .consumer).yielded[f.prefetcher.yielded.length]? = some item)
    (habove : f.cachedNodeBlockCount.getD 0 < item.block.height) :
    AlongChain start blocks hashes first
      { f with prefetcher := f.prefetcher.step .consumer, pc := .counting item.block } := by
  have hended := h.not_ended (by simp [hpc])
  obtain ⟨hyielded, hidle⟩ := consumer_step_of_get hitem
  obtain ⟨resets, hconverging⟩ := h.converging
  have hafter := hconverging.step hdescent .consumer trivial
  have hheight := hafter.height_last hdescent.chain hdescent.top_lt hyielded
  obtain ⟨-, -, hle⟩ := hafter.exists_count hdescent.top_lt
  rw [hyielded, List.length_append, List.length_singleton] at hle
  have hunread : f.cachedNodeBlockCount = none := by
    cases hcached : f.cachedNodeBlockCount with
    | none => rfl
    | some blockCount =>
        obtain ⟨hcount, -⟩ := h.read blockCount hcached
        rw [hcached, Option.getD_some] at habove
        omega
  constructor
  case converging => exact ⟨_, hafter⟩
  case endless => exact h.endless
  case phase => exact iff_of_false (by simp) (by simp [hidle])
  case going => simp [hended]
  case returned =>
    refine ⟨0, ?_, by simp⟩
    have hreturned := h.returned_of_going hended
    simpa [Fetcher.handed, hyielded, hpc] using hreturned
  case counting =>
    intro other hother
    cases hother
    refine ⟨⟨_, item, hyielded, rfl⟩, hunread, ?_⟩
    have hfew := h.unread hunread (by simp [hpc])
    omega
  case unread => exact fun _ hnot => absurd rfl (hnot item.block)
  case read => simp [hunread]
  case head => simp [hended]
  case last => simp
  case early => simp

theorem pass (h : AlongChain start blocks hashes first f) (hdescent : Descent blocks hashes first first)
    (hpc : f.pc = .fetching) {item : RpcBlockWithPrevId ι δ}
    (hitem : (f.prefetcher.step .consumer).yielded[f.prefetcher.yielded.length]? = some item)
    (hbelow : item.block.height ≤ f.cachedNodeBlockCount.getD 0) :
    AlongChain start blocks hashes first
      ({ f with prefetcher := f.prefetcher.step .consumer }.give item.block) := by
  have hended := h.not_ended (by simp [hpc])
  obtain ⟨hyielded, hidle⟩ := consumer_step_of_get hitem
  obtain ⟨resets, hconverging⟩ := h.converging
  have hafter := hconverging.step hdescent .consumer trivial
  have hheight := hafter.height_last hdescent.chain hdescent.top_lt hyielded
  have hlength : (f.prefetcher.step .consumer).yielded.length = f.prefetcher.yielded.length + 1 := by
    rw [hyielded, List.length_append, List.length_singleton]
  constructor
  case converging => exact ⟨_, hafter⟩
  case endless => exact h.endless
  case phase => exact iff_of_false (by simp [Fetcher.give]) (by simpa [Fetcher.give] using hidle)
  case going => simp [Fetcher.give]
  case returned =>
    refine ⟨0, ?_, by simp⟩
    have hreturned := h.returned_of_going hended
    simp only [Fetcher.handed, hpc] at hreturned
    simp [Fetcher.give, Fetcher.handed, hyielded, hreturned]
  case counting => simp [Fetcher.give]
  case unread =>
    intro hnone _
    change f.cachedNodeBlockCount = none at hnone
    rw [hnone, Option.getD_none] at hbelow
    refine .inr ?_
    simp only [Fetcher.give, hlength]
    omega
  case read =>
    intro blockCount hcached
    obtain ⟨hcount, hpast⟩ := h.read blockCount hcached
    refine ⟨hcount, ?_⟩
    simp only [Fetcher.give, hlength]
    omega
  case head => simp [Fetcher.give, hended]
  case last =>
    -- the head itself would have been above the last count read
    intro hhead hall _
    simp only [Fetcher.give, hlength] at hall
    cases hcached : f.cachedNodeBlockCount with
    | none =>
        rw [hcached, Option.getD_none] at hbelow
        omega
    | some blockCount =>
        have hpast := (h.read blockCount hcached).2
        omega
  case early => simp [Fetcher.give]

theorem count (h : AlongChain start blocks hashes first f) (hdescent : Descent blocks hashes first first)
    {item : WithHeightAndId ι δ} (hpc : f.pc = .counting item) {blockCount : ℕ}
    (hcount : blockCount + 1 = blocks.length) :
    AlongChain start blocks hashes first ({ f with
      cachedNodeBlockCount := some blockCount
      ended := if blockCount ≤ item.height then true else f.ended }.give item) := by
  have hended := h.not_ended (by simp [hpc])
  obtain ⟨⟨before, last, hyielded, rfl⟩, -, hfirst⟩ := h.counting _ hpc
  obtain ⟨resets, hconverging⟩ := h.converging
  have hheight := hconverging.height_last hdescent.chain hdescent.top_lt hyielded
  obtain ⟨-, -, hle⟩ := hconverging.exists_count hdescent.top_lt
  have hlength : f.prefetcher.yielded.length = before.length + 1 := by
    rw [hyielded, List.length_append, List.length_singleton]
  have hidle : f.prefetcher.phase = .idle := by
    by_contra hbusy
    rw [h.phase.2 hbusy] at hpc
    cases hpc
  constructor
  case converging => exact ⟨_, hconverging⟩
  case endless => exact h.endless
  case phase => exact iff_of_false (by simp [Fetcher.give]) (by simpa [Fetcher.give] using hidle)
  case going => simp [Fetcher.give]
  case returned =>
    refine ⟨0, ?_, by simp⟩
    have hreturned := h.returned_of_going hended
    simp only [Fetcher.handed, hpc] at hreturned
    simp [Fetcher.give, Fetcher.handed, hyielded, hreturned]
  case counting => simp [Fetcher.give]
  case unread => simp [Fetcher.give]
  case read =>
    intro other hother
    cases hother
    refine ⟨hcount, ?_⟩
    simp only [Fetcher.give, hlength]
    omega
  case head =>
    intro hends
    simp only [Fetcher.give, hended] at hends
    split at hends
    · simp only [Fetcher.give, hlength]
      omega
    · cases hends
  case last =>
    intro hhead _ _
    have htop : blockCount ≤ last.block.height := by omega
    simp [Fetcher.give, htop]
  case early => simp [Fetcher.give]

theorem step (h : AlongChain start blocks hashes first f) (hdescent : Descent blocks hashes first first)
    {event : FetcherEvent ι δ} (hserves : event.onChain blocks) :
    AlongChain start blocks hashes first (f.step event) := by
  have hfetched := fetched_step f event
  generalize f.step event = stepped at hfetched
  obtain ⟨resets, hconverging⟩ := h.converging
  cases hfetched with
  | busy | idle | failed => exact h
  | finished hpc hended =>
      obtain ⟨calls, hreturned, -⟩ := h.returned
      refine ⟨h.converging, h.endless, h.phase, h.going, ⟨calls + 1, ?_, fun _ => hended⟩,
        h.counting, h.unread, h.read, h.head, h.last, h.early⟩
      have hhanded : ({ f with returned := f.returned ++ [none] } : Fetcher ι δ).handed = f.handed :=
        rfl
      rw [hhanded, List.replicate_succ', ← List.append_assoc, ← hreturned]
  | asked hpc hended => exact h.ask hdescent hpc hended
  | waited rpc hpc hnone =>
      obtain ⟨hyielded, hphase⟩ := consumer_step_of_none hnone
      have hbusy := h.phase.1 hpc
      exact h.quiet ⟨_, hconverging.step hdescent .consumer trivial⟩ hyielded
        (iff_of_false (fun hidle => hbusy (hphase hidle)) hbusy)
  | reached rpc item endHeight hpc hitem hend =>
      rw [h.endless] at hend
      cases hend
  | above rpc item hpc hitem hend habove => exact h.look hdescent hpc hitem habove
  | below rpc item hpc hitem hend hbelow => exact h.pass hdescent hpc hitem hbelow
  | counted rpc item blockCount hpc hanswer =>
      exact h.count hdescent hpc (hserves blockCount hanswer)
  | worked index rpc =>
      obtain ⟨hyielded, hphase⟩ := worker_step f.prefetcher index rpc
      exact h.quiet ⟨_, hconverging.step hdescent (.worker index rpc) hserves⟩ hyielded
        (by rw [hphase])

theorem runTo (h : AlongChain start blocks hashes first f)
    (hdescent : Descent blocks hashes first first) {events : ℕ → FetcherEvent ι δ}
    (hserves : ∀ time, (events time).onChain blocks) (time : ℕ) :
    AlongChain start blocks hashes first (runTo Fetcher.step f events time) := by
  induction time with
  | zero => exact h
  | succ time ih => exact ih.step hdescent (hserves time)

end AlongChain

end BitcoinIndexer.Node
