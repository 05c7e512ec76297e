import BitcoinIndexer.Node.HeadReached

/-!
# A fetcher with an end

It never asks for the block count.  Whatever the node answers, it ends with the first block
at the given height or above, so that its caller has a chain up to that height; and where the
node serves a chain that is long enough it does end.
-/

namespace BitcoinIndexer.Node

open BitcoinIndexer.ReferenceChain
open BitcoinIndexer.OrderedMap
open BitcoinIndexer.FairRuns

variable {ι δ : Type} [DecidableEq ι]

section Safety

variable {start : Option (WithHeightAndId ι Unit)} {chain : List ι} {top : ℕ} {f : Fetcher ι δ}

/-- The fetcher goes on until it has yielded a block at `top` or above. -/
structure Heading (start : Option (WithHeightAndId ι Unit)) (chain : List ι) (top : ℕ)
    (f : Fetcher ι δ) : Prop where
  inv : Inv start chain f.prefetcher
  endHeight : f.endHeight = some top
  uncounted : ∀ item, f.pc ≠ .counting item
  going : f.ended = true → f.pc = .outside
  returned : ∃ calls, f.returned = (f.prefetcher.yielded.map fun item => some item.block) ++
    List.replicate calls none ∧ (0 < calls → f.ended = true)
  below : f.ended = false → ∀ item ∈ f.prefetcher.yielded, item.block.height < top
  reached : f.ended = true → ∃ before last, f.prefetcher.yielded = before ++ [last] ∧
    (∀ item ∈ before, item.block.height < top) ∧ top ≤ last.block.height

omit [DecidableEq ι] in
theorem heightAfter_nil (start : Option (WithHeightAndId ι Unit)) :
    heightAfter start ([] : List (RpcBlockWithPrevId ι δ)) = firstHeight start := by
  cases start <;> rfl

theorem yielded_step_next (s : State ι δ) : (s.step .next).yielded = s.yielded := by
  have htransition := transition_step s .next
  generalize s.step .next = after at htransition
  cases htransition <;> rfl

namespace Heading

omit [DecidableEq ι] in
theorem returned_of_going (h : Heading start chain top f) (hgoing : f.ended = false) :
    f.returned = f.prefetcher.yielded.map fun item => some item.block := by
  obtain ⟨calls, hreturned, hnone⟩ := h.returned
  obtain rfl | hpos := Nat.eq_zero_or_pos calls
  · simpa using hreturned
  · rw [hnone hpos] at hgoing
    cases hgoing

omit [DecidableEq ι] in
theorem returned_of_unclosed (h : Heading start chain top f) (hgoing : f.hasEnded = false) :
    f.returned = f.prefetcher.yielded.map fun item => some item.block := by
  obtain ⟨calls, hreturned, -⟩ := h.returned
  obtain rfl | hpos := Nat.eq_zero_or_pos calls
  · simpa using hreturned
  · simp [Fetcher.hasEnded, hreturned, Nat.pos_iff_ne_zero.1 hpos] at hgoing

omit [DecidableEq ι] in
theorem not_ended (h : Heading start chain top f) (hpc : f.pc = .fetching) : f.ended = false := by
  rw [← Bool.not_eq_true]
  intro hended
  rw [h.going hended] at hpc
  cases hpc

omit [DecidableEq ι] in
/-- A step of the prefetcher that yields nothing. -/
theorem quiet (h : Heading start chain top f) {p : State ι δ} (hinv : Inv start chain p)
    (hyielded : p.yielded = f.prefetcher.yielded) : Heading start chain top { f with prefetcher := p } where
  inv := hinv
  endHeight := h.endHeight
  uncounted := h.uncounted
  going := h.going
  returned := by
    simp only [hyielded]
    exact h.returned
  below := by
    simp only [hyielded]
    exact h.below
  reached := by
    simp only [hyielded]
    exact h.reached

omit [DecidableEq ι] in
/-- A call that the prefetcher has to answer. -/
theorem ask (h : Heading start chain top f) (hended : f.ended = false) :
    Heading start chain top { f with pc := .fetching } where
  inv := h.inv
  endHeight := h.endHeight
  uncounted := by simp
  going := by simp [hended]
  returned := h.returned
  below := h.below
  reached := h.reached

omit [DecidableEq ι] in
/-- A block below the end is handed on, and the first other one with which the fetcher ends. -/
theorem hand (h : Heading start chain top f) (hgoing : f.ended = false) {p : State ι δ}
    (hinv : Inv start chain p) {item : RpcBlockWithPrevId ι δ}
    (hyielded : p.yielded = f.prefetcher.yielded ++ [item]) :
    Heading start chain top ({ f with
      prefetcher := p
      ended := if top ≤ item.block.height then true else f.ended }.give item.block) where
  inv := hinv
  endHeight := h.endHeight
  uncounted := by simp [Fetcher.give]
  going := fun _ => rfl
  returned := by
    refine ⟨0, ?_, by simp⟩
    simp [Fetcher.give, hyielded, h.returned_of_going hgoing]
  below := by
    simp only [Fetcher.give, hyielded, hgoing]
    split_ifs with htop
    · simp
    · intro _ other hother
      obtain hold | hnew := List.mem_append.1 hother
      · exact h.below hgoing other hold
      · rw [List.mem_singleton.1 hnew]
        exact not_le.1 htop
  reached := by
    simp only [Fetcher.give, hyielded, hgoing]
    split_ifs with htop
    · exact fun _ => ⟨f.prefetcher.yielded, item, rfl, h.below hgoing, htop⟩
    · simp

theorem step (h : Heading start chain top f) (event : FetcherEvent ι δ) :
    Heading start chain top (f.step event) := by
  have hfetched := fetched_step f event
  generalize f.step event = stepped at hfetched
  cases hfetched with
  | busy | idle => exact h
  | failed rpc item error hpc => exact absurd hpc (h.uncounted item)
  | counted rpc item blockCount hpc => exact absurd hpc (h.uncounted item)
  | above rpc item hpc hitem hend | below rpc item hpc hitem hend =>
      rw [h.endHeight] at hend
      cases hend
  | asked hpc hended =>
      exact (h.quiet (h.inv.step .next) (yielded_step_next f.prefetcher)).ask hended
  | waited rpc hpc hnone =>
      exact h.quiet (h.inv.step .consumer) (consumer_step_of_none hnone).1
  | worked index rpc =>
      exact h.quiet (h.inv.step (.worker index rpc)) (worker_step f.prefetcher index rpc).1
  | reached rpc item endHeight hpc hitem hend =>
      obtain rfl : top = endHeight := by simpa [h.endHeight] using hend
      exact h.hand (h.not_ended hpc) (h.inv.step .consumer) (consumer_step_of_get hitem).1
  | finished hpc hended =>
      obtain ⟨calls, hreturned, -⟩ := h.returned
      refine ⟨h.inv, h.endHeight, h.uncounted, h.going, ⟨calls + 1, ?_, fun _ => hended⟩,
        h.below, h.reached⟩
      rw [hreturned, List.append_assoc, List.replicate_succ']

/-- After the end the prefetcher is left alone, and a call returns `None`. -/
theorem ended_step (h : Heading start chain top f) (hended : f.ended = true)
    (event : FetcherEvent ι δ) :
    (f.step event).ended = true ∧
      ((f.step event).returned = f.returned ∧ event.thread ≠ .caller ∨
        (f.step event).returned = f.returned ++ [none]) := by
  have hpc := h.going hended
  have hfetched := fetched_step f event
  generalize f.step event = stepped at hfetched
  cases hfetched with
  | finished => exact ⟨hended, .inr rfl⟩
  | idle | worked => exact ⟨hended, .inl ⟨rfl, by simp [FetcherEvent.thread]⟩⟩
  | busy hbusy => exact absurd hpc hbusy
  | asked _ hgoing =>
      rw [hended] at hgoing
      cases hgoing
  | waited rpc hbusy | reached rpc item endHeight hbusy | above rpc item hbusy
  | below rpc item hbusy | failed rpc item error hbusy | counted rpc item blockCount hbusy =>
      rw [hpc] at hbusy
      cases hbusy

omit [DecidableEq ι] in
/-- A chain goes up block by block. -/
theorem last_le {before : List (RpcBlockWithPrevId ι δ)} {last : RpcBlockWithPrevId ι δ}
    (hlinked : Linked start chain (before ++ [last]))
    (hbefore : ∀ item ∈ before, item.block.height < top) :
    last.block.height ≤ max top (firstHeight start) := by
  have hnext := (linked_append_singleton.1 hlinked).2.next
  obtain rfl | ⟨earlier, item, rfl⟩ := List.eq_nil_or_concat' before
  · rw [heightAfter_nil] at hnext
    exact hnext.trans (le_max_right _ _)
  · rw [heightAfter_append] at hnext
    exact hnext.trans ((Nat.succ_le_of_lt (hbefore item (by simp))).trans (le_max_left _ _))

omit [DecidableEq ι] in
theorem below_dropLast (h : Heading start chain top f) :
    ∀ item ∈ f.prefetcher.yielded.dropLast, item.block.height < top := by
  cases hended : f.ended with
  | false => exact fun item hmem => h.below hended item (List.mem_of_mem_dropLast hmem)
  | true =>
      obtain ⟨before, last, hyielded, hbefore, -⟩ := h.reached hended
      rw [hyielded, List.dropLast_concat]
      exact hbefore

omit [DecidableEq ι] in
theorem le_stop (h : Heading start chain top f) :
    ∀ item ∈ f.prefetcher.yielded, item.block.height ≤ max top (firstHeight start) := by
  have hbelow := h.below_dropLast
  have hlinks := h.inv.links
  obtain hnil | ⟨before, last, hyielded⟩ := List.eq_nil_or_concat' f.prefetcher.yielded
  · simp [hnil]
  · rw [hyielded] at hlinks hbelow ⊢
    rw [List.dropLast_concat] at hbelow
    intro item hmem
    obtain hold | hnew := List.mem_append.1 hmem
    · exact (hbelow item hold).le.trans (le_max_left _ _)
    · rw [List.mem_singleton.1 hnew]
      exact last_le hlinks hbelow

end Heading

end Safety

/-! ## On a fixed chain -/

/-- The workers are answered with `blocks`, or with errors. -/
def FetcherEvent.fetches (blocks : List (RpcBlockWithPrevId ι δ)) : FetcherEvent ι δ → Prop
  | .worker _ rpc => Serves blocks rpc
  | _ => True

section Liveness

variable {start : Option (WithHeightAndId ι Unit)} {blocks : List (RpcBlockWithPrevId ι δ)}
variable {hashes : BTreeMap ℕ ι} {top : ℕ} {f : Fetcher ι δ}

/-- What holds besides while the node serves `blocks`. -/
structure HeadingOn (start : Option (WithHeightAndId ι Unit))
    (blocks : List (RpcBlockWithPrevId ι δ)) (hashes : BTreeMap ℕ ι) (top : ℕ)
    (f : Fetcher ι δ) : Prop
    extends Heading start ((idents blocks).take (firstHeight start)) top f where
  converging : ∃ resets,
    Converging start blocks [] hashes (firstHeight start) (firstHeight start) resets f.prefetcher
  phase : f.pc = .fetching ↔ f.prefetcher.phase ≠ .idle

namespace HeadingOn

omit [DecidableEq ι] in
theorem idle (h : HeadingOn start blocks hashes top f) (hpc : f.pc = .outside) :
    f.prefetcher.phase = .idle := by
  by_contra hbusy
  rw [h.phase.2 hbusy] at hpc
  cases hpc

variable (hdescent : Descent blocks hashes (firstHeight start) (firstHeight start))
include hdescent

theorem step (h : HeadingOn start blocks hashes top f) {event : FetcherEvent ι δ}
    (hserves : event.fetches blocks) : HeadingOn start blocks hashes top (f.step event) := by
  have hheading := h.toHeading.step event
  have hfetched := fetched_step f event
  generalize f.step event = stepped at hheading hfetched
  obtain ⟨resets, hconverging⟩ := h.converging
  refine { hheading with converging := ?_, phase := ?_ }
  · cases hfetched with
    | busy | idle | finished | failed | counted => exact ⟨_, hconverging⟩
    | asked => exact ⟨_, hconverging.step hdescent .next trivial⟩
    | waited | reached | above | below => exact ⟨_, hconverging.step hdescent .consumer trivial⟩
    | worked index rpc => exact ⟨_, hconverging.step hdescent (.worker index rpc) hserves⟩
  · cases hfetched with
    | busy | idle | finished | failed => exact h.phase
    | counted rpc item blockCount hpc => exact absurd hpc (h.uncounted item)
    | above rpc item hpc hitem hend | below rpc item hpc hitem hend =>
        rw [h.endHeight] at hend
        cases hend
    | asked hpc => exact iff_of_true rfl (next_step (h.idle hpc)).2
    | waited rpc hpc hnone =>
        have hbusy := mt (consumer_step_of_none hnone).2 (h.phase.1 hpc)
        exact iff_of_true hpc hbusy
    | reached rpc item endHeight hpc hitem =>
        exact iff_of_false (by simp [Fetcher.give]) (not_not.2 (consumer_step_of_get hitem).2)
    | worked index rpc =>
        rw [(worker_step f.prefetcher index rpc).2]
        exact h.phase

theorem runTo (h : HeadingOn start blocks hashes top f) {events : ℕ → FetcherEvent ι δ}
    (hserves : ∀ time, (events time).fetches blocks) (time : ℕ) :
    HeadingOn start blocks hashes top (runTo Fetcher.step f events time) := by
  induction time with
  | zero => exact h
  | succ time ih => exact ih.step hdescent (hserves time)

omit [DecidableEq ι] in
/-- Before the end there are blocks left to yield. -/
theorem missing (h : HeadingOn start blocks hashes top f)
    (hlong : max top (firstHeight start) < blocks.length) (hended : f.ended = false) :
    f.prefetcher.yielded.length < 0 + (blocks.length - firstHeight start) := by
  obtain ⟨resets, hconverging⟩ := h.converging
  have hfirst := hdescent.top_lt
  obtain hnil | ⟨before, item, hyielded⟩ := List.eq_nil_or_concat' f.prefetcher.yielded
  · rw [hnil, List.length_nil]
    omega
  · have hheight := hconverging.height_last hdescent.chain hfirst hyielded
    have hbelow := h.below hended item (by simp [hyielded])
    rw [hyielded, List.length_append, List.length_singleton]
    omega

omit [DecidableEq ι] in
/-- At the end the blocks up to `top` have been yielded, or one. -/
theorem yielded_of_ended (h : HeadingOn start blocks hashes top f) (hended : f.ended = true) :
    f.prefetcher.yielded =
      (blocks.take (max top (firstHeight start) + 1)).drop (firstHeight start) := by
  obtain ⟨resets, hconverging⟩ := h.converging
  obtain ⟨before, last, hyielded, hbefore, htop⟩ := h.reached hended
  have hheight := hconverging.height_last hdescent.chain hdescent.top_lt hyielded
  have hlinks := h.inv.links
  rw [hyielded] at hlinks
  have hle := Heading.last_le hlinks hbefore
  have hcount : f.prefetcher.yielded.length =
      max top (firstHeight start) + 1 - firstHeight start := by
    rw [hyielded, List.length_append, List.length_singleton]
    omega
  obtain ⟨htaken, -⟩ := hconverging.exists_count hdescent.top_lt
  rw [htaken, hcount, List.drop_take]

/-- Whoever helps the prefetcher brings the end nearer. -/
theorem rank_step (h : HeadingOn start blocks hashes top f)
    (hlong : max top (firstHeight start) < blocks.length) (hended : f.ended = false)
    {event : FetcherEvent ι δ} (hserves : event.fetches blocks) (hanswered : ¬ f.GetsError event) :
    let ranked := fun f : Fetcher ι δ =>
      rank blocks.length (0 + (blocks.length - firstHeight start)) 0 (firstHeight start) f.prefetcher
    ranked (f.step event) < ranked f ∨
      ranked (f.step event) = ranked f ∧ ¬ Helps blocks.length f.prefetcher event.thread ∧
        ∀ t, t ≠ event.thread → Helps blocks.length f.prefetcher t →
          Helps blocks.length (f.step event).prefetcher t := by
  intro ranked
  obtain ⟨resets, hconverging⟩ := h.converging
  have hmissing := h.missing hdescent hlong hended
  have hfetched := fetched_step f event
  generalize f.step event = stepped at hfetched
  cases hfetched with
  | finished hpc hends =>
      rw [hended] at hends
      cases hends
  | failed rpc item error hpc => exact absurd hpc (h.uncounted item)
  | counted rpc item blockCount hpc => exact absurd hpc (h.uncounted item)
  | above rpc item hpc hitem hend | below rpc item hpc hitem hend =>
      rw [h.endHeight] at hend
      cases hend
  | busy hpc =>
      refine .inr ⟨rfl, ?_, fun _ _ hhelps => hhelps⟩
      apply h.phase.1
      cases hbusy : f.pc with
      | outside => exact absurd hbusy hpc
      | fetching => rfl
      | counting item => exact absurd hbusy (h.uncounted item)
  | idle rpc hpc =>
      refine .inr ⟨rfl, ?_, fun _ _ hhelps => hhelps⟩
      simp [FetcherEvent.thread, Helps, h.idle hpc]
  | asked hpc => exact hconverging.rank_inner hdescent hmissing .next trivial id
  | waited rpc hpc => exact hconverging.rank_inner hdescent hmissing .consumer trivial id
  | reached rpc item endHeight hpc hitem =>
      exact .inl (hconverging.rank_yield hdescent hmissing hitem)
  | worked index rpc =>
      exact hconverging.rank_inner hdescent hmissing (.worker index rpc) hserves hanswered

end HeadingOn

/-- The fetcher comes to its end. -/
def heading (hdescent : Descent blocks hashes (firstHeight start) (firstHeight start))
    (hlong : max top (firstHeight start) < blocks.length) :
    Progress Fetcher.step FetcherEvent.thread Fetcher.Lives
      (fun (f : Fetcher ι δ) event => event.fetches blocks ∧ ¬ f.GetsError event)
      (HeadingOn start blocks hashes top) (fun f => f.ended = true) (ℕ ×ₗ ℕ) where
  rank := fun f =>
    rank blocks.length (0 + (blocks.length - firstHeight start)) 0 (firstHeight start) f.prefetcher
  helps := fun f => Helps blocks.length f.prefetcher
  someone := by
    intro f h hgoing
    obtain ⟨resets, hconverging⟩ := h.converging
    have hmissing := h.missing hdescent hlong (by simpa using hgoing)
    have hcur : f.prefetcher.prefetcher.curHeight < blocks.length := by
      rw [(hconverging.exists_count hdescent.top_lt).2.1]
      omega
    exact hconverging.supplied.someone hconverging.alive hcur
  living := by
    intro f t _ _ hhelps
    cases t with
    | caller | iterator => trivial
    | worker index =>
        obtain ⟨w, hget, -⟩ := hhelps
        exact (List.getElem?_eq_some_iff.1 hget).1
  kept := fun f event h _ hadmitted => h.step hdescent hadmitted.1
  steady := by
    intro f event h hgoing hadmitted
    obtain hlt | ⟨heq, -, hkept⟩ :=
      h.rank_step hdescent hlong (by simpa using hgoing) hadmitted.1 hadmitted.2
    · exact .inl hlt
    · exact .inr ⟨heq, hkept⟩
  falls := by
    intro f event h hgoing hadmitted hhelps
    obtain hlt | ⟨-, hnot, -⟩ :=
      h.rank_step hdescent hlong (by simpa using hgoing) hadmitted.1 hadmitted.2
    · exact hlt
    · exact absurd hhelps hnot

omit [DecidableEq ι] in
theorem hasEnded_of_none {after : Fetcher ι δ} (h : after.returned = f.returned ++ [none]) :
    after.hasEnded = true := by
  simp [Fetcher.hasEnded, h]

/-- The next call after the end returns `None`. -/
def closing (hdescent : Descent blocks hashes (firstHeight start) (firstHeight start)) :
    Progress Fetcher.step FetcherEvent.thread Fetcher.Lives
      (fun (f : Fetcher ι δ) event => event.fetches blocks ∧ ¬ f.GetsError event)
      (fun f => HeadingOn start blocks hashes top f ∧ f.ended = true) (fun f => f.hasEnded = true)
      ℕ where
  rank := fun f => if f.hasEnded then 0 else 1
  helps := fun _ t => t = .caller
  someone := fun _ _ _ => ⟨.caller, rfl⟩
  living := by
    rintro f _ _ _ rfl
    trivial
  kept := fun f event h _ hadmitted =>
    ⟨h.1.step hdescent hadmitted.1, (h.1.toHeading.ended_step h.2 event).1⟩
  steady := by
    intro f event h hgoing _
    obtain ⟨-, ⟨hsame, -⟩ | hnone⟩ := h.1.toHeading.ended_step h.2 event
    · have hkept : (f.step event).hasEnded = f.hasEnded := congrArg (List.any · Option.isNone) hsame
      exact .inr ⟨by rw [hkept], fun _ _ hhelps => hhelps⟩
    · rw [if_pos (hasEnded_of_none hnone), if_neg hgoing]
      exact .inl Nat.one_pos
  falls := by
    intro f event h hgoing _ hhelps
    obtain ⟨-, ⟨-, hother⟩ | hnone⟩ := h.1.toHeading.ended_step h.2 event
    · exact absurd hhelps hother
    · rw [if_pos (hasEnded_of_none hnone), if_neg hgoing]
      exact Nat.one_pos

omit [DecidableEq ι] in
theorem StartsOn.starts (h : StartsOn blocks start) :
    Starts start ((idents blocks).take (firstHeight start)) := by
  cases start with
  | none => exact List.take_zero
  | some last =>
      obtain ⟨item, hitem, hid⟩ := h.block last rfl
      have hbelow : last.height + 1 ≤ blocks.length := h.below.le
      refine ⟨?_, ?_⟩
      · rw [List.length_take, length_idents]
        exact Nat.min_eq_left hbelow
      · rw [firstHeight, List.getElem?_take_of_lt (Nat.lt_succ_self _), idents, List.getElem?_map,
          hitem]
        exact congrArg some hid

omit [DecidableEq ι] in
theorem heading_new {chain : List ι} (threadNum count top : ℕ) (hstart : Starts start chain) :
    Heading start chain top (.new threadNum count start (some top) : Fetcher ι δ) := by
  have hyielded : (State.new threadNum count start : State ι δ).yielded = [] := by
    cases start <;> rfl
  constructor
  case inv => exact inv_new threadNum count hstart
  case returned => exact ⟨0, by simp [Fetcher.new, hyielded], by simp⟩
  all_goals simp [Fetcher.new, hyielded]

omit [DecidableEq ι] in
theorem headingOn_new {threadNum : ℕ} (hthreads : 0 < threadNum) (count top : ℕ)
    (h : StartsOn blocks start) : HeadingOn start blocks
      (State.new threadNum count start : State ι δ).prefetcher.prevHashes top
        (.new threadNum count start (some top)) where
  toHeading := heading_new threadNum count top h.starts
  converging := (along_new hthreads count h).converging
  phase := (along_new hthreads count h).phase

end Liveness

/-- A fetcher with an end, and any node: the calls return linked blocks, all below the end
but the last one, and `None` only when the caller has a chain up to the end (or one block,
where it starts above).  If the node serves a chain that is long enough, the calls return it
up to the end and then `None`. -/
theorem fetcher_stops_at_end (threadNum count top : ℕ) (start : Option (WithHeightAndId ι Unit))
    (hthreads : 0 < threadNum) :
    let fetcher : Fetcher ι δ := .new threadNum count start (some top)
    let stop := max top (firstHeight start)
    (∀ (chain : List ι) (events : ℕ → FetcherEvent ι δ), Starts start chain → ∀ time,
      let f := runTo Fetcher.step fetcher events time
      (∀ item, f.pc ≠ .counting item) ∧
      ∃ blocks calls, Linked start chain blocks ∧
        f.returned = (blocks.map fun item => some item.block) ++ List.replicate calls none ∧
        (∀ item ∈ blocks.dropLast, item.block.height < top) ∧
        (∀ item ∈ blocks, item.block.height ≤ stop) ∧
        (0 < calls → top < (consumed chain blocks).length)) ∧
    ∀ (blocks : List (RpcBlockWithPrevId ι δ)) (events : ℕ → FetcherEvent ι δ),
      Extends [] blocks → StartsOn blocks start → stop < blocks.length →
      (∀ time, (events time).fetches blocks) →
      let run := runTo Fetcher.step fetcher events
      (∃ last, ∀ time, last ≤ time → ¬ (run time).GetsError (events time)) →
      Fair Fetcher.step FetcherEvent.thread Fetcher.Lives fetcher events →
      ∃ time, (run time).returned = ((blocks.take (stop + 1)).drop (firstHeight start)).map
        (fun item => some item.block) ++ [none] := by
  intro fetcher stop
  refine ⟨fun chain events hstart time => ?_, fun blocks events hextends hstart hlong hserves => ?_⟩
  · intro f
    have hheading : Heading start chain top f :=
      kept_runTo (fun _ event h => h.step event) (heading_new threadNum count top hstart) events time
    obtain ⟨calls, hreturned, hnone⟩ := hheading.returned
    refine ⟨hheading.uncounted, f.prefetcher.yielded, calls, hheading.inv.links, hreturned,
      hheading.below_dropLast, hheading.le_stop, fun hpos => ?_⟩
    obtain ⟨before, last, hyielded, -, htop⟩ := hheading.reached (hnone hpos)
    rw [hheading.inv.links.length_consumed hstart, hyielded, heightAfter_append]
    exact Nat.lt_succ_of_le htop
  · rintro run ⟨last, hanswered⟩ hfair
    have hdescent := hstart.descent hextends threadNum count
    have hall := (headingOn_new hthreads count top hstart).runTo hdescent hserves
    have hadmitted : ∀ later, last ≤ later →
        (events later).fetches blocks ∧ ¬ (run later).GetsError (events later) :=
      fun later hle => ⟨hserves later, hanswered later hle⟩
    obtain ⟨reached, hle, hended⟩ :=
      (heading hdescent hlong).eventually hfair hadmitted le_rfl (hall last)
    obtain ⟨closed, -, hends⟩ :=
      (closing hdescent).eventually hfair hadmitted hle ⟨hall reached, hended⟩
    obtain ⟨before, hreturned, hgoing, hstopped, -⟩ := exists_first_none rfl hends
    have hgiven := (hall before).returned_of_unclosed hgoing
    rw [(hall before).yielded_of_ended hdescent hstopped] at hgiven
    exact ⟨before + 1, hreturned.trans (congrArg (· ++ [none]) hgiven)⟩

omit [DecidableEq ι] in
theorem FetcherEvent.fetches_of_onChain {blocks : List (RpcBlockWithPrevId ι δ)}
    {event : FetcherEvent ι δ} (h : event.onChain blocks) : event.fetches blocks := by
  cases event with
  | worker index rpc => exact h
  | _ => trivial

/-- The chain on which a fetcher without an end goes on for ever. -/
theorem longer_stops :
    ∃ time, (runTo Fetcher.step (.new 1 2 none (some 1)) (fetcherTurns (serve longer)) time).returned =
      [some ⟨0, 20, ()⟩, some ⟨1, 21, ()⟩, none] := by
  obtain ⟨-, hfixed⟩ := fetcher_stops_at_end (ι := ℕ) (δ := Unit) 1 2 1 none Nat.one_pos
  have hextends : Extends [] longer := by simp [Extends, longer, blockAt]
  have hserves := fetcherTurns_onChain longer_served (by decide)
  exact hfixed longer (fetcherTurns (serve longer)) hextends ⟨by decide, by simp⟩ (by decide)
    (fun time => FetcherEvent.fetches_of_onChain (hserves time))
    ⟨0, fun time _ => fetcherTurns_getsNoError longer _ time⟩ (fetcherTurns_fair _ _)

end BitcoinIndexer.Node
