import BitcoinIndexer.Node.ChainEnd

/-!
# Fetching up to the head

While blocks are missing the fetcher gets on as its prefetcher does; once all are
yielded it ends with the next call if it has read the block count for the last of them,
and otherwise waits for a block that never comes.
-/

namespace BitcoinIndexer.Node

open BitcoinIndexer.ReferenceChain
open BitcoinIndexer.OrderedMap
open BitcoinIndexer.FairRuns

variable {ι δ : Type}

def FetcherEvent.thread : FetcherEvent ι δ → Thread
  | .next => .caller
  | .fetcher _ => .iterator
  | .worker index _ => .worker index

def Fetcher.Lives (f : Fetcher ι δ) : Thread → Prop := f.prefetcher.Lives

/-- A worker is answered with an error, or the loop around `get_block_count` is. -/
def Fetcher.GetsError (f : Fetcher ι δ) : FetcherEvent ι δ → Prop
  | .next => False
  | .fetcher rpc =>
      match f.pc with
      | .counting _ => ∃ error, rpc.getBlockCount = .error error
      | _ => False
  | .worker index rpc => f.prefetcher.GetsError (.worker index rpc)

def Fetcher.countsLeft (f : Fetcher ι δ) : ℕ :=
  match f.pc with
  | .counting _ => 1
  | _ => 0

/-- Whose step brings the next block nearer. -/
def Fetcher.Helps (top : ℕ) (f : Fetcher ι δ) (t : Thread) : Prop :=
  match f.pc with
  | .counting _ => t = .iterator
  | _ => Node.Helps top f.prefetcher t

section Steps

variable [DecidableEq ι] {start : Option (WithHeightAndId ι Unit)}
variable {blocks : List (RpcBlockWithPrevId ι δ)} {hashes : BTreeMap ℕ ι} {first : ℕ}
variable {f : Fetcher ι δ}

/-- What the fetcher has to do for the blocks of the chain. -/
def Fetcher.rank (blocks : List (RpcBlockWithPrevId ι δ)) (first : ℕ) (f : Fetcher ι δ) :
    (ℕ ×ₗ ℕ) ×ₗ ℕ :=
  toLex (Node.rank blocks.length (0 + (blocks.length - first)) 0 first f.prefetcher, f.countsLeft)

omit [DecidableEq ι] in
theorem Fetcher.rank_lt_of_prefetcher {before after : Fetcher ι δ}
    (hlt : Node.rank blocks.length (0 + (blocks.length - first)) 0 first after.prefetcher <
      Node.rank blocks.length (0 + (blocks.length - first)) 0 first before.prefetcher) :
    after.rank blocks first < before.rank blocks first :=
  Prod.Lex.toLex_lt_toLex.2 (.inl hlt)

/-- A step of the prefetcher under the fetcher. -/
theorem Converging.rank_inner {s : State ι δ} {resets : ℕ}
    (h : Converging start blocks [] hashes first first resets s)
    (hdescent : Descent blocks hashes first first)
    (hmissing : s.yielded.length < 0 + (blocks.length - first)) (event : Event ι δ)
    (hserves : event.answers (Serves blocks)) (hanswered : ¬ s.GetsError event) :
    let ranked := Node.rank (ι := ι) (δ := δ) blocks.length (0 + (blocks.length - first)) 0 first
    ranked (s.step event) < ranked s ∨
      ranked (s.step event) = ranked s ∧ ¬ Node.Helps blocks.length s event.thread ∧
        ∀ t, t ≠ event.thread → Node.Helps blocks.length s t →
          Node.Helps blocks.length (s.step event) t := by
  intro ranked
  by_cases hsteps : s.step? event = none
  · have hstay : s.step event = s := by rw [State.step, hsteps]; rfl
    rw [hstay]
    exact .inr ⟨rfl, fun hhelps => h.supplied.step?_ne_none hhelps hsteps, fun _ _ hhelps => hhelps⟩
  · exact h.rank_step hdescent hmissing hserves hanswered hsteps

/-- A step that yields a block brings the rank down. -/
theorem Converging.rank_yield {s : State ι δ} {resets : ℕ}
    (h : Converging start blocks [] hashes first first resets s)
    (hdescent : Descent blocks hashes first first)
    (hmissing : s.yielded.length < 0 + (blocks.length - first)) {item : RpcBlockWithPrevId ι δ}
    (hitem : (s.step .consumer).yielded[s.yielded.length]? = some item) :
    Node.rank blocks.length (0 + (blocks.length - first)) 0 first (s.step .consumer) <
      Node.rank blocks.length (0 + (blocks.length - first)) 0 first s := by
  refine h.rank_lt hdescent hmissing (transition_step s .consumer) (fun hnone => ?_) (by simp)
  have hstay : s.step .consumer = s := by rw [State.step, hnone]; rfl
  rw [hstay, List.getElem?_eq_none le_rfl] at hitem
  cases hitem

theorem AlongChain.rank_step (h : AlongChain start blocks hashes first f)
    (hdescent : Descent blocks hashes first first)
    (hmissing : first + f.prefetcher.yielded.length < blocks.length) {event : FetcherEvent ι δ}
    (hserves : event.onChain blocks) (hanswered : ¬ f.GetsError event) :
    (f.step event).rank blocks first < f.rank blocks first ∨
      (f.step event).rank blocks first = f.rank blocks first ∧
        ¬ f.Helps blocks.length event.thread ∧
        ∀ t, t ≠ event.thread → f.Helps blocks.length t → (f.step event).Helps blocks.length t := by
  have hfetched := fetched_step f event
  generalize f.step event = stepped at hfetched
  obtain ⟨resets, hconverging⟩ := h.converging
  have hmissing' : f.prefetcher.yielded.length < 0 + (blocks.length - first) := by omega
  cases hfetched with
  | finished hpc hended =>
      have hall := (h.head hended).2
      omega
  | reached rpc item endHeight hpc hitem hend =>
      rw [h.endless] at hend
      cases hend
  | busy hpc =>
      refine .inr ⟨rfl, fun hhelps => ?_, fun _ _ hhelps => hhelps⟩
      cases hbusy : f.pc with
      | outside => exact hpc hbusy
      | counting item => simp [Fetcher.Helps, hbusy, FetcherEvent.thread] at hhelps
      | fetching =>
          simp only [Fetcher.Helps, hbusy] at hhelps
          exact h.phase.1 hbusy hhelps
  | idle rpc hpc =>
      refine .inr ⟨rfl, fun hhelps => ?_, fun _ _ hhelps => hhelps⟩
      have hidle : f.prefetcher.phase = .idle := by
        by_contra hbusy
        rw [h.phase.2 hbusy] at hpc
        cases hpc
      simp [Fetcher.Helps, hpc, FetcherEvent.thread, Node.Helps, hidle] at hhelps
  | asked hpc hended =>
      left
      have hidle : f.prefetcher.phase = .idle := by
        by_contra hbusy
        rw [h.phase.2 hbusy] at hpc
        cases hpc
      obtain hlt | ⟨-, hnot, -⟩ :=
        hconverging.rank_inner hdescent hmissing' .next trivial id
      · exact Fetcher.rank_lt_of_prefetcher hlt
      · exact absurd hidle hnot
  | waited rpc hpc hnone =>
      obtain hlt | ⟨heq, hnot, hkept⟩ :=
        hconverging.rank_inner hdescent hmissing' .consumer trivial id
      · exact .inl (Fetcher.rank_lt_of_prefetcher hlt)
      · refine .inr ⟨?_, fun hhelps => ?_, fun t hne hhelps => ?_⟩
        · simp only [Fetcher.rank, Fetcher.countsLeft, heq]
        · simp only [Fetcher.Helps, hpc] at hhelps
          exact hnot hhelps
        · simp only [Fetcher.Helps, hpc] at hhelps ⊢
          exact hkept t hne hhelps
  | above rpc item hpc hitem hend habove =>
      exact .inl (Fetcher.rank_lt_of_prefetcher (hconverging.rank_yield hdescent hmissing' hitem))
  | below rpc item hpc hitem hend hbelow =>
      exact .inl (Fetcher.rank_lt_of_prefetcher (hconverging.rank_yield hdescent hmissing' hitem))
  | failed rpc item error hpc hanswer =>
      refine absurd ?_ hanswered
      simp only [Fetcher.GetsError, hpc]
      exact ⟨error, hanswer⟩
  | counted rpc item blockCount hpc hanswer =>
      refine .inl (Prod.Lex.toLex_lt_toLex.2 (.inr ⟨rfl, ?_⟩))
      simp [Fetcher.countsLeft, Fetcher.give, hpc]
  | worked index rpc =>
      obtain hlt | ⟨heq, hnot, hkept⟩ :=
        hconverging.rank_inner hdescent hmissing' (.worker index rpc) hserves hanswered
      · exact .inl (Fetcher.rank_lt_of_prefetcher hlt)
      · refine .inr ⟨?_, fun hhelps => ?_, fun t hne hhelps => ?_⟩
        · simp only [Fetcher.rank, Fetcher.countsLeft, heq]
        · cases hpc : f.pc <;> simp only [Fetcher.Helps, hpc] at hhelps
          · exact hnot hhelps
          · exact hnot hhelps
          · cases hhelps
        · cases hpc : f.pc <;> simp only [Fetcher.Helps, hpc] at hhelps ⊢
          · exact hkept t hne hhelps
          · exact hkept t hne hhelps
          · exact hhelps

/-- All blocks of the chain reach the fetcher. -/
def fetching (hdescent : Descent blocks hashes first first) :
    Progress Fetcher.step FetcherEvent.thread Fetcher.Lives
      (fun (f : Fetcher ι δ) event => event.onChain blocks ∧ ¬ f.GetsError event)
      (AlongChain start blocks hashes first)
      (fun f => blocks.length ≤ first + f.prefetcher.yielded.length) ((ℕ ×ₗ ℕ) ×ₗ ℕ) where
  rank := Fetcher.rank blocks first
  helps := Fetcher.Helps blocks.length
  someone := by
    intro f h hmissing
    obtain ⟨resets, hconverging⟩ := h.converging
    have hcur : f.prefetcher.prefetcher.curHeight < blocks.length := by
      rw [(hconverging.exists_count hdescent.top_lt).2.1]
      omega
    obtain ⟨t, hhelps⟩ := hconverging.supplied.someone hconverging.alive hcur
    cases hpc : f.pc with
    | counting item => exact ⟨.iterator, by simp [Fetcher.Helps, hpc]⟩
    | outside => exact ⟨t, by simpa only [Fetcher.Helps, hpc] using hhelps⟩
    | fetching => exact ⟨t, by simpa only [Fetcher.Helps, hpc] using hhelps⟩
  living := by
    intro f t _ _ hhelps
    cases t with
    | caller | iterator => exact trivial
    | worker index =>
        cases hpc : f.pc <;> simp only [Fetcher.Helps, hpc] at hhelps
        · obtain ⟨w, hget, -⟩ := hhelps
          exact (List.getElem?_eq_some_iff.1 hget).1
        · obtain ⟨w, hget, -⟩ := hhelps
          exact (List.getElem?_eq_some_iff.1 hget).1
        · cases hhelps
  kept := fun f event h _ hadmitted => h.step hdescent hadmitted.1
  steady := by
    intro f event h hmissing hadmitted
    obtain hlt | ⟨heq, -, hkept⟩ := h.rank_step hdescent (by omega) hadmitted.1 hadmitted.2
    · exact .inl hlt
    · exact .inr ⟨heq, hkept⟩
  falls := by
    intro f event h hmissing hadmitted hhelps
    obtain hlt | ⟨-, hnot, -⟩ := h.rank_step hdescent (by omega) hadmitted.1 hadmitted.2
    · exact hlt
    · exact absurd hhelps hnot

/-! ## After the last block -/

/-- Everything is yielded, and the count is read for the last block. -/
structure AtHead (start : Option (WithHeightAndId ι Unit))
    (blocks : List (RpcBlockWithPrevId ι δ)) (hashes : BTreeMap ℕ ι) (first : ℕ)
    (f : Fetcher ι δ) : Prop where
  along : AlongChain start blocks hashes first f
  head : blocks.length = max first 1 + 1
  all : blocks.length ≤ first + f.prefetcher.yielded.length

theorem length_yielded_le (f : Fetcher ι δ) (event : FetcherEvent ι δ) :
    f.prefetcher.yielded.length ≤ (f.step event).prefetcher.yielded.length := by
  have hinner : ∀ inner : Event ι δ,
      f.prefetcher.yielded.length ≤ (f.prefetcher.step inner).yielded.length := by
    intro inner
    obtain hsame | ⟨-, hlonger⟩ := yielded_step f.prefetcher inner
    · rw [hsame]
    · omega
  have hfetched := fetched_step f event
  generalize f.step event = stepped at hfetched
  cases hfetched with
  | busy | finished | idle | failed | counted => exact le_rfl
  | asked => exact hinner .next
  | waited | reached | above | below => exact hinner .consumer
  | worked index rpc => exact hinner (.worker index rpc)

/-- Some call has returned `None`. -/
def Fetcher.hasEnded (f : Fetcher ι δ) : Bool := f.returned.any Option.isNone

/-- The block count to read and the call that returns `None`. -/
def Fetcher.endLeft (f : Fetcher ι δ) : ℕ :=
  f.countsLeft + if f.hasEnded then 0 else 1

def Fetcher.endHelps (f : Fetcher ι δ) (t : Thread) : Prop :=
  match f.pc with
  | .counting _ => t = .iterator
  | _ => t = .caller

theorem AtHead.endLeft_step (h : AtHead start blocks hashes first f) (hgoing : f.hasEnded = false)
    {event : FetcherEvent ι δ} (hanswered : ¬ f.GetsError event) :
    (f.step event).endLeft < f.endLeft ∨
      (f.step event).endLeft = f.endLeft ∧ ¬ f.endHelps event.thread ∧
        ∀ t, t ≠ event.thread → f.endHelps t → (f.step event).endHelps t := by
  obtain ⟨resets, hconverging⟩ := h.along.converging
  have hfetching : f.pc ≠ .fetching := by
    intro hpc
    have hearly := h.along.early h.head hpc
    have hall := h.all
    omega
  have hfetched := fetched_step f event
  generalize f.step event = stepped at hfetched
  cases hfetched with
  | waited rpc hpc => exact absurd hpc hfetching
  | reached rpc item endHeight hpc => exact absurd hpc hfetching
  | above rpc item hpc => exact absurd hpc hfetching
  | below rpc item hpc => exact absurd hpc hfetching
  | busy hpc =>
      refine .inr ⟨rfl, fun hhelps => ?_, fun _ _ hhelps => hhelps⟩
      cases hbusy : f.pc with
      | outside => exact hpc hbusy
      | fetching => exact hfetching hbusy
      | counting item => simp [Fetcher.endHelps, hbusy, FetcherEvent.thread] at hhelps
  | idle rpc hpc =>
      refine .inr ⟨rfl, fun hhelps => ?_, fun _ _ hhelps => hhelps⟩
      simp [Fetcher.endHelps, hpc, FetcherEvent.thread] at hhelps
  | finished hpc hended =>
      left
      rw [Fetcher.endLeft, Fetcher.endLeft, hgoing]
      simp [Fetcher.hasEnded, Fetcher.countsLeft]
  | asked hpc hended =>
      have hall := (hconverging.exists_count (by have := h.head; omega)).2.2
      rw [h.along.last h.head (by have := h.all; omega) hpc] at hended
      cases hended
  | failed rpc item error hpc hanswer =>
      refine absurd ?_ hanswered
      simp only [Fetcher.GetsError, hpc]
      exact ⟨error, hanswer⟩
  | counted rpc item blockCount hpc hanswer =>
      left
      rw [Fetcher.endLeft, Fetcher.endLeft, hgoing]
      simp only [Fetcher.hasEnded] at hgoing
      simp [Fetcher.hasEnded, Fetcher.countsLeft, Fetcher.give, hgoing, hpc]
  | worked index rpc =>
      refine .inr ⟨rfl, fun hhelps => ?_, fun t hne hhelps => hhelps⟩
      cases hpc : f.pc <;> simp [Fetcher.endHelps, hpc, FetcherEvent.thread] at hhelps

def ending (hdescent : Descent blocks hashes first first) :
    Progress Fetcher.step FetcherEvent.thread Fetcher.Lives
      (fun (f : Fetcher ι δ) event => event.onChain blocks ∧ ¬ f.GetsError event)
      (AtHead start blocks hashes first) (fun f => f.hasEnded = true) ℕ where
  rank := Fetcher.endLeft
  helps := Fetcher.endHelps
  someone := by
    intro f _ _
    cases hpc : f.pc with
    | counting item => exact ⟨.iterator, by simp [Fetcher.endHelps, hpc]⟩
    | outside | fetching => exact ⟨.caller, by simp [Fetcher.endHelps, hpc]⟩
  living := by
    intro f t _ _ hhelps
    cases hpc : f.pc <;> simp only [Fetcher.endHelps, hpc] at hhelps <;> subst hhelps <;> trivial
  kept := fun f event h _ hadmitted =>
    ⟨h.along.step hdescent hadmitted.1, h.head, h.all.trans
      (Nat.add_le_add_left (length_yielded_le f event) first)⟩
  steady := by
    intro f event h hgoing hadmitted
    obtain hlt | ⟨heq, -, hkept⟩ := h.endLeft_step (by simpa using hgoing) hadmitted.2
    · exact .inl hlt
    · exact .inr ⟨heq, hkept⟩
  falls := by
    intro f event h hgoing hadmitted hhelps
    obtain hlt | ⟨-, hnot, -⟩ := h.endLeft_step (by simpa using hgoing) hadmitted.2
    · exact hlt
    · exact absurd hhelps hnot

omit [DecidableEq ι] in
theorem Fetcher.hasEnded_give (f : Fetcher ι δ) (item : WithHeightAndId ι δ) :
    (f.give item).hasEnded = f.hasEnded := by
  simp [hasEnded, give]

theorem ends_step {event : FetcherEvent ι δ} (hgoing : f.hasEnded = false)
    (hends : (f.step event).hasEnded = true) :
    (f.step event).returned = f.returned ++ [none] ∧ f.ended = true ∧ f.pc = .outside := by
  have hfetched := fetched_step f event
  generalize f.step event = stepped at hfetched hends
  cases hfetched with
  | finished hpc hended => exact ⟨rfl, hended, hpc⟩
  | reached | below | counted =>
      rw [Fetcher.hasEnded_give] at hends
      exact absurd (hgoing.symm.trans hends) (by simp)
  | _ => exact absurd (hgoing.symm.trans hends) (by simp)

theorem exists_first_none {events : ℕ → FetcherEvent ι δ} (hgoing : f.hasEnded = false) {time : ℕ}
    (hends : (runTo Fetcher.step f events time).hasEnded = true) :
    ∃ earlier, let before := runTo Fetcher.step f events earlier
      (runTo Fetcher.step f events (earlier + 1)).returned = before.returned ++ [none] ∧
        before.hasEnded = false ∧ before.ended = true ∧ before.pc = .outside := by
  induction time with
  | zero =>
      rw [runTo, hgoing] at hends
      cases hends
  | succ time ih =>
      cases hbefore : (runTo Fetcher.step f events time).hasEnded with
      | true => exact ih hbefore
      | false =>
          obtain ⟨hreturned, hended, hpc⟩ := ends_step hbefore hends
          exact ⟨time, hreturned, hbefore, hended, hpc⟩

omit [DecidableEq ι] in
theorem AlongChain.hasEnded_iff (h : AlongChain start blocks hashes first f) :
    f.hasEnded = true → f.ended = true := by
  intro hends
  obtain ⟨calls, hreturned, hnone⟩ := h.returned
  obtain rfl | hpos := Nat.eq_zero_or_pos calls
  · simp [Fetcher.hasEnded, hreturned] at hends
  · exact hnone hpos

omit [DecidableEq ι] in
/-- What has been returned is the chain so far, then `None`. -/
theorem AlongChain.exists_returned (h : AlongChain start blocks hashes first f)
    (hfirst : first < blocks.length) :
    ∃ count calls, count ≤ blocks.length - first ∧ f.returned =
      ((blocks.drop first).take count).map (fun item => some item.block) ++
        List.replicate calls none := by
  obtain ⟨calls, hreturned, -⟩ := h.returned
  obtain ⟨resets, hconverging⟩ := h.converging
  obtain ⟨htaken, -, hle⟩ := hconverging.exists_count hfirst
  have hmap : ∀ count, (((blocks.drop first).take count).map (·.block)).map some =
      ((blocks.drop first).take count).map fun item => some item.block := by
    intro count
    rw [List.map_map]
    rfl
  cases hpc : f.pc with
  | counting item =>
      refine ⟨f.prefetcher.yielded.length - 1, calls, by omega, ?_⟩
      have hdrop : f.prefetcher.yielded.dropLast =
          (blocks.drop first).take (f.prefetcher.yielded.length - 1) :=
        calc f.prefetcher.yielded.dropLast
            = f.prefetcher.yielded.take (f.prefetcher.yielded.length - 1) :=
              List.dropLast_eq_take
          _ = ((blocks.drop first).take f.prefetcher.yielded.length).take
                (f.prefetcher.yielded.length - 1) := congrArg (List.take _) htaken
          _ = (blocks.drop first).take (f.prefetcher.yielded.length - 1) := by
              rw [List.take_take, Nat.min_eq_left (Nat.sub_le _ _)]
      rw [hreturned, ← hmap, ← hdrop, List.map_dropLast]
      simp only [Fetcher.handed, hpc]
  | outside =>
      refine ⟨f.prefetcher.yielded.length, calls, by omega, ?_⟩
      rw [hreturned, ← hmap, ← htaken]
      simp only [Fetcher.handed, hpc]
  | fetching =>
      refine ⟨f.prefetcher.yielded.length, calls, by omega, ?_⟩
      rw [hreturned, ← hmap, ← htaken]
      simp only [Fetcher.handed, hpc]

omit [DecidableEq ι] in
/-- At the end every block has been returned. -/
theorem AlongChain.returned_of_ended (h : AlongChain start blocks hashes first f)
    (hfirst : first < blocks.length) (hended : f.ended = true) (hgoing : f.hasEnded = false) :
    f.returned = (blocks.drop first).map fun item => some item.block := by
  obtain ⟨calls, hreturned, -⟩ := h.returned
  obtain ⟨resets, hconverging⟩ := h.converging
  obtain ⟨htaken, -, -⟩ := hconverging.exists_count hfirst
  have hall := (h.head hended).2
  have hlength : (blocks.drop first).length ≤ f.prefetcher.yielded.length := by
    rw [List.length_drop]
    omega
  rw [List.take_of_length_le hlength] at htaken
  have hcalls : calls = 0 := by
    by_contra hne
    simp [Fetcher.hasEnded, hreturned, hne] at hgoing
  rw [hreturned, hcalls, List.replicate_zero, List.append_nil, ← htaken]
  simp only [Fetcher.handed, h.going hended, List.map_map]
  rfl

/-! ## From the start -/

omit [DecidableEq ι] in
theorem curHeight_new (threadNum count : ℕ) (start : Option (WithHeightAndId ι Unit)) :
    (State.new threadNum count start : State ι δ).prefetcher.curHeight = firstHeight start := by
  cases start <;> rfl

omit [DecidableEq ι] in
theorem StartsOn.descent (h : StartsOn blocks start) (hextends : Extends [] blocks)
    (threadNum count : ℕ) :
    Descent blocks (State.new threadNum count start : State ι δ).prefetcher.prevHashes
      (firstHeight start) (firstHeight start) := by
  have hfork : ForkAt blocks (State.new threadNum count start : State ι δ).prefetcher.prevHashes
      (State.new threadNum count start : State ι δ).prefetcher.curHeight (firstHeight start) := by
    rw [curHeight_new]
    refine ⟨le_rfl, fun hpos => ?_, fun height item hle hlt => by omega, fun hzero height hlt => ?_⟩
    · cases start with
      | none => exact absurd hpos (lt_irrefl 0)
      | some last =>
          obtain ⟨item, hitem, hid⟩ := h.block last rfl
          refine ⟨item, hitem, ?_⟩
          have hget : (BTreeMap.empty.insert last.height last.id).get last.height = some last.id :=
            BTreeMap.get_insert_self _ _ _
          rw [hid]
          exact hget
    · rw [hzero] at hlt
      exact absurd hlt (Nat.not_lt_zero _)
  have hdescent := hfork.descent (sound_new threadNum count start) hextends
    (by rw [curHeight_new]; exact h.below)
  rwa [curHeight_new] at hdescent

omit [DecidableEq ι] in
theorem along_new {threadNum : ℕ} (hthreads : 0 < threadNum) (count : ℕ) (h : StartsOn blocks start) :
    AlongChain start blocks (State.new threadNum count start : State ι δ).prefetcher.prevHashes
      (firstHeight start) (.new threadNum count start none) := by
  have hstarted : JustStarted (State.new threadNum count start : State ι δ) := by
    cases start <;> exact ⟨rfl, .inl rfl⟩
  have hconverging : Converging start blocks [] _ _ (firstHeight start) 0 _ :=
    hstarted.converging (sound_new threadNum count start) hthreads
      (curHeight_new threadNum count start).ge
  rw [curHeight_new] at hconverging
  constructor
  case converging => exact ⟨0, hconverging⟩
  case returned => exact ⟨0, rfl, by simp⟩
  case unread => exact fun _ _ => .inl rfl
  case last =>
    intro _ hall _
    have hbelow := h.below
    change firstHeight start + 0 = blocks.length at hall
    omega
  all_goals simp [Fetcher.new, State.new, State.started, Prefetcher.startWorkers]

end Steps

/-- Two findings on a fetcher without an end.  While the chain grows it ends right after
the first block at the head exactly if every block it returns at the count read last is
no longer the head by then.  On a chain that stays as it is the blocks come in order,
each once; but it ends at the head, without waiting for a block above it, exactly if the
first block above height 0 is the last one of the chain. -/
theorem fetcher_ends_at_head_iff [DecidableEq ι] (threadNum count : ℕ)
    (start : Option (WithHeightAndId ι Unit)) (hthreads : 0 < threadNum) :
    let fetcher : Fetcher ι δ := .new threadNum count start none
    (∀ (heads : ℕ → ℕ) (events : ℕ → FetcherEvent ι δ), Monotone heads →
      (∀ time, (events time).counts (heads time)) →
      let run := runTo Fetcher.step fetcher events
      (∀ time, EndsRight (heads time) (run time) (run (time + 1))) ↔
        ∀ time, Outgrown (heads time) (run time) (run (time + 1))) ∧
    ∀ (blocks : List (RpcBlockWithPrevId ι δ)) (events : ℕ → FetcherEvent ι δ),
      Extends [] blocks → StartsOn blocks start → (∀ time, (events time).onChain blocks) →
      let run := runTo Fetcher.step fetcher events
      (∃ last, ∀ time, last ≤ time → ¬ (run time).GetsError (events time)) →
      Fair Fetcher.step FetcherEvent.thread Fetcher.Lives fetcher events →
      (∀ time, ∃ count calls, count ≤ blocks.length - firstHeight start ∧ (run time).returned =
        ((blocks.drop (firstHeight start)).take count).map (fun item => some item.block) ++
          List.replicate calls none) ∧
      (EndsAtHead blocks (firstHeight start) run ↔
        blocks.length = max (firstHeight start) 1 + 1) := by
  intro fetcher
  refine ⟨fun heads events hgrows hcounts => ?_, fun blocks events hextends hstart hserves => ?_⟩
  · have hall := counting_runTo hgrows hcounts (counting_new threadNum count start (heads 0))
    exact forall_congr' fun time => (hall time).endsRight_iff (hcounts time)
  intro run herrors hfair
  have hdescent := hstart.descent hextends threadNum count
  have hall := (along_new hthreads count hstart).runTo hdescent hserves
  refine ⟨fun time => (hall time).exists_returned hstart.below, ?_, fun hhead => ⟨?_, ?_⟩⟩
  · rintro ⟨⟨time, hreturned⟩, -⟩
    have hends : (run time).hasEnded = true := by simp [Fetcher.hasEnded, hreturned]
    exact ((hall time).head ((hall time).hasEnded_iff hends)).1
  · obtain ⟨last, hanswered⟩ := herrors
    have hadmitted : ∀ later, last ≤ later → (events later).onChain blocks ∧
        ¬ (run later).GetsError (events later) :=
      fun later hle => ⟨hserves later, hanswered later hle⟩
    obtain ⟨full, hle, hyielded⟩ :=
      (fetching hdescent).eventually hfair hadmitted le_rfl (hall last)
    obtain ⟨ended, -, hends⟩ :=
      (ending hdescent).eventually hfair hadmitted hle ⟨hall full, hhead, hyielded⟩
    obtain ⟨before, hreturned, hgoing, hended, hpc⟩ := exists_first_none rfl hends
    refine ⟨before + 1, hreturned.trans ?_⟩
    rw [(hall before).returned_of_ended hstart.below hended hgoing]
  · intro time hpc
    obtain ⟨resets, hconverging⟩ := (hall time).converging
    rw [(hconverging.exists_count hstart.below).2.1]
    exact (hall time).early hhead hpc

/-- Everyone takes turns: the caller, the fetcher, and one worker after the other. -/
@[irreducible]
def fetcherTurns (rpc : Rpc ℕ Unit) (time : ℕ) : FetcherEvent ℕ Unit :=
  match time % 3 with
  | 0 => .next
  | 1 => .fetcher rpc
  | _ => .worker (Nat.unpair (time / 3)).1 rpc

theorem fetcherTurns_fair (rpc : Rpc ℕ Unit) (f : Fetcher ℕ Unit) :
    Fair Fetcher.step FetcherEvent.thread Fetcher.Lives f (fetcherTurns rpc) := by
  intro t time
  cases t with
  | caller => exact ⟨3 * time, by omega, fun _ => by simp [fetcherTurns, FetcherEvent.thread]⟩
  | iterator =>
      exact ⟨3 * time + 1, by omega, fun _ => by
        simp [fetcherTurns, FetcherEvent.thread, Nat.add_mod]⟩
  | worker index =>
      have hle := Nat.right_le_pair index time
      refine ⟨3 * Nat.pair index time + 2, by omega, fun _ => ?_⟩
      have hmod : (3 * Nat.pair index time + 2) % 3 = 2 := by omega
      have hdiv : (3 * Nat.pair index time + 2) / 3 = Nat.pair index time := by omega
      simp [fetcherTurns, FetcherEvent.thread, hmod, hdiv]

theorem fetcherTurns_onChain {blocks : List (RpcBlockWithPrevId ℕ Unit)}
    (hserves : Serves blocks (serve blocks)) (hlength : 0 < blocks.length) (time : ℕ) :
    (fetcherTurns (serve blocks) time).onChain blocks := by
  unfold fetcherTurns
  split
  · exact trivial
  · intro blockCount hanswer
    cases hanswer
    omega
  · exact hserves

theorem fetcherTurns_getsNoError (blocks : List (RpcBlockWithPrevId ℕ Unit)) (f : Fetcher ℕ Unit)
    (time : ℕ) : ¬ f.GetsError (fetcherTurns (serve blocks) time) := by
  unfold fetcherTurns
  split
  · exact id
  · intro herror
    simp only [Fetcher.GetsError] at herror
    split at herror
    · simp [serve] at herror
    · exact herror
  · rintro ⟨w, -, herror⟩
    unfold Worker.GetsError at herror
    split at herror <;> simp [serve] at herror

/-- A chain of two blocks is fetched up to its head. -/
theorem replaced_chain_ends :
    EndsAtHead replaced 0
      (runTo Fetcher.step (.new 1 1 none none) (fetcherTurns (serve replaced))) := by
  obtain ⟨-, hfixed⟩ := fetcher_ends_at_head_iff (ι := ℕ) (δ := Unit) 1 1 none Nat.one_pos
  have hextends : Extends [] replaced := by simp [Extends, replaced, blockAt]
  have hends := (hfixed replaced (fetcherTurns (serve replaced)) hextends
    ⟨by decide, by simp⟩ (fetcherTurns_onChain replaced_served (by decide))
    ⟨0, fun time _ => fetcherTurns_getsNoError _ _ time⟩ (fetcherTurns_fair _ _)).2
  exact hends.2 rfl

/-- The chain of the node with a third block. -/
def longer : List (RpcBlockWithPrevId ℕ Unit) := [blockAt 0 20 9, blockAt 1 21 20, blockAt 2 22 21]

theorem longer_served : Serves longer (serve longer) where
  ids := by
    intro height answer hanswer
    cases hanswer
    match height with
    | 0 | 1 | 2 => rfl
    | height + 3 => rfl
  blocks := by
    intro item hmem answer hanswer
    cases hanswer
    obtain rfl | rfl | rfl : item = blockAt 0 20 9 ∨ item = blockAt 1 21 20 ∨
        item = blockAt 2 22 21 := by
      simpa [longer] using hmem
    all_goals rfl

/-- With one block more the fetcher does not end, although everyone takes turns and the
node serves the chain without errors. -/
theorem longer_chain_never_ends :
    let events := fetcherTurns (serve longer)
    let run := runTo Fetcher.step (.new 1 2 none none) events
    (∀ time, (events time).onChain longer ∧ ¬ (run time).GetsError (events time)) ∧
      Fair Fetcher.step FetcherEvent.thread Fetcher.Lives (.new 1 2 none none) events ∧
      (∀ time, (run time).hasEnded = false) ∧ ¬ EndsAtHead longer 0 run := by
  intro events run
  have hserves := fetcherTurns_onChain longer_served (by decide)
  have hextends : Extends [] longer := by simp [Extends, longer, blockAt]
  have hstart : StartsOn longer none := ⟨by decide, by simp⟩
  have hdescent := hstart.descent hextends 1 2
  have hgoing : ∀ time, (run time).hasEnded = false := by
    intro time
    have halong : AlongChain none longer _ 0 (run time) :=
      (along_new Nat.one_pos 2 hstart).runTo hdescent hserves time
    rw [← Bool.not_eq_true]
    intro hends
    have hhead := (halong.head (halong.hasEnded_iff hends)).1
    simp [longer] at hhead
  refine ⟨fun time => ⟨hserves time, fetcherTurns_getsNoError _ _ time⟩, fetcherTurns_fair _ _,
    hgoing, ?_⟩
  rintro ⟨⟨time, hreturned⟩, -⟩
  have hends := hgoing time
  simp [Fetcher.hasEnded, hreturned] at hends

end BitcoinIndexer.Node
