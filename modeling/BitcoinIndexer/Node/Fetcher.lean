import BitcoinIndexer.Node.Liveness

/-!
# The fetcher

An iterator over the prefetcher that ends: at a height it was given, or where the node
reports no higher block.  One thread is in `next`, the workers of the prefetcher run
beside it, and the chain may grow at any moment.
-/

namespace BitcoinIndexer.Node

open BitcoinIndexer.FairRuns

variable {ι δ : Type}

/-- Where the thread is in `next`. -/
inductive FetcherPc (ι δ : Type) where
  | outside
  | fetching
  | counting (item : WithHeightAndId ι δ)
  deriving DecidableEq

/-- The fetcher and what its calls have returned; `endHeight` is the source's `end`. -/
structure Fetcher (ι δ : Type) where
  cachedNodeBlockCount : Option ℕ
  prefetcher : State ι δ
  ended : Bool
  endHeight : Option ℕ
  pc : FetcherPc ι δ
  returned : List (Option (WithHeightAndId ι δ))
  deriving DecidableEq

/-- A call, a step of the thread in `next`, or one of a worker. -/
inductive FetcherEvent (ι δ : Type) where
  | next
  | fetcher (rpc : Rpc ι δ)
  | worker (index : ℕ) (rpc : Rpc ι δ)

namespace Fetcher

def new (threadNum count : ℕ) (start : Option (WithHeightAndId ι Unit)) (endHeight : Option ℕ) :
    Fetcher ι δ where
  cachedNodeBlockCount := none
  prefetcher := .new threadNum count start
  ended := false
  endHeight := endHeight
  pc := .outside
  returned := []

def give (f : Fetcher ι δ) (item : WithHeightAndId ι δ) : Fetcher ι δ :=
  { f with pc := .outside, returned := f.returned ++ [some item] }

/-- What `next` does with a block of the prefetcher. -/
def receive (f : Fetcher ι δ) (item : WithHeightAndId ι δ) : Fetcher ι δ :=
  match f.endHeight with
  | some endHeight =>
      { f with ended := if endHeight ≤ item.height then true else f.ended }.give item
  | none =>
      if f.cachedNodeBlockCount.getD 0 < item.height then { f with pc := .counting item }
      else f.give item

/-- One round of the loop around `get_block_count`. -/
def count (f : Fetcher ι δ) (item : WithHeightAndId ι δ) (rpc : Rpc ι δ) : Fetcher ι δ :=
  match rpc.getBlockCount with
  | .error _ => f
  | .ok blockCount =>
      { f with
        cachedNodeBlockCount := some blockCount
        ended := if blockCount ≤ item.height then true else f.ended }.give item

variable [DecidableEq ι]

def callNext (f : Fetcher ι δ) : Fetcher ι δ :=
  match f.pc with
  | .outside =>
      if f.ended then { f with returned := f.returned ++ [none] }
      else { f with prefetcher := f.prefetcher.step .next, pc := .fetching }
  | _ => f

def fetcherStep (f : Fetcher ι δ) (rpc : Rpc ι δ) : Fetcher ι δ :=
  match f.pc with
  | .outside => f
  | .fetching =>
      let p := f.prefetcher.step .consumer
      match p.yielded[f.prefetcher.yielded.length]? with
      | some item => { f with prefetcher := p }.receive item.block
      | none => { f with prefetcher := p }
  | .counting item => f.count item rpc

def step (f : Fetcher ι δ) : FetcherEvent ι δ → Fetcher ι δ
  | .next => f.callNext
  | .fetcher rpc => f.fetcherStep rpc
  | .worker index rpc => { f with prefetcher := f.prefetcher.step (.worker index rpc) }

end Fetcher

/-! ## What one step can do -/

section Steps

variable [DecidableEq ι]

inductive Fetched (f : Fetcher ι δ) : FetcherEvent ι δ → Fetcher ι δ → Prop where
  | busy (hpc : f.pc ≠ .outside) : Fetched f .next f
  | finished (hpc : f.pc = .outside) (hended : f.ended = true) :
      Fetched f .next { f with returned := f.returned ++ [none] }
  | asked (hpc : f.pc = .outside) (hended : f.ended = false) :
      Fetched f .next { f with prefetcher := f.prefetcher.step .next, pc := .fetching }
  | idle (rpc : Rpc ι δ) (hpc : f.pc = .outside) : Fetched f (.fetcher rpc) f
  | waited (rpc : Rpc ι δ) (hpc : f.pc = .fetching)
      (hnone : (f.prefetcher.step .consumer).yielded[f.prefetcher.yielded.length]? = none) :
      Fetched f (.fetcher rpc) { f with prefetcher := f.prefetcher.step .consumer }
  | reached (rpc : Rpc ι δ) (item : RpcBlockWithPrevId ι δ) (endHeight : ℕ)
      (hpc : f.pc = .fetching)
      (hitem : (f.prefetcher.step .consumer).yielded[f.prefetcher.yielded.length]? = some item)
      (hend : f.endHeight = some endHeight) :
      Fetched f (.fetcher rpc) ({ f with
        prefetcher := f.prefetcher.step .consumer
        ended := if endHeight ≤ item.block.height then true else f.ended }.give item.block)
  | above (rpc : Rpc ι δ) (item : RpcBlockWithPrevId ι δ) (hpc : f.pc = .fetching)
      (hitem : (f.prefetcher.step .consumer).yielded[f.prefetcher.yielded.length]? = some item)
      (hend : f.endHeight = none) (habove : f.cachedNodeBlockCount.getD 0 < item.block.height) :
      Fetched f (.fetcher rpc)
        { f with prefetcher := f.prefetcher.step .consumer, pc := .counting item.block }
  | below (rpc : Rpc ι δ) (item : RpcBlockWithPrevId ι δ) (hpc : f.pc = .fetching)
      (hitem : (f.prefetcher.step .consumer).yielded[f.prefetcher.yielded.length]? = some item)
      (hend : f.endHeight = none) (hbelow : item.block.height ≤ f.cachedNodeBlockCount.getD 0) :
      Fetched f (.fetcher rpc)
        ({ f with prefetcher := f.prefetcher.step .consumer }.give item.block)
  | failed (rpc : Rpc ι δ) (item : WithHeightAndId ι δ) (error : RpcError)
      (hpc : f.pc = .counting item) (hanswer : rpc.getBlockCount = .error error) :
      Fetched f (.fetcher rpc) f
  | counted (rpc : Rpc ι δ) (item : WithHeightAndId ι δ) (blockCount : ℕ)
      (hpc : f.pc = .counting item) (hanswer : rpc.getBlockCount = .ok blockCount) :
      Fetched f (.fetcher rpc) ({ f with
        cachedNodeBlockCount := some blockCount
        ended := if blockCount ≤ item.height then true else f.ended }.give item)
  | worked (index : ℕ) (rpc : Rpc ι δ) :
      Fetched f (.worker index rpc) { f with prefetcher := f.prefetcher.step (.worker index rpc) }

theorem fetched_step (f : Fetcher ι δ) (event : FetcherEvent ι δ) : Fetched f event (f.step event) := by
  cases event with
  | worker index rpc => exact .worked index rpc
  | next =>
      obtain ⟨cached, prefetcher, ended, endHeight, pc, returned⟩ := f
      cases pc with
      | outside =>
          cases ended with
          | false => exact .asked rfl rfl
          | true => exact .finished rfl rfl
      | fetching => exact .busy (by simp)
      | counting item => exact .busy (by simp)
  | fetcher rpc =>
      simp only [Fetcher.step, Fetcher.fetcherStep]
      cases hpc : f.pc with
      | outside => exact .idle rpc hpc
      | counting item =>
          simp only [Fetcher.count]
          cases hanswer : rpc.getBlockCount with
          | error error => exact .failed rpc item error hpc hanswer
          | ok blockCount => exact .counted rpc item blockCount hpc hanswer
      | fetching =>
          simp only
          cases hitem : (f.prefetcher.step .consumer).yielded[f.prefetcher.yielded.length]? with
          | none =>
              rw [← hpc]
              exact .waited rpc hpc hitem
          | some item =>
              simp only [Fetcher.receive]
              cases hend : f.endHeight with
              | some endHeight =>
                  have hreached := Fetched.reached rpc item endHeight hpc hitem hend
                  simpa only [Fetcher.give, hend] using hreached
              | none =>
                  simp only
                  split
                  · rename_i habove
                    have habove' := Fetched.above rpc item hpc hitem hend habove
                    simpa only [hend] using habove'
                  · rename_i hbelow
                    have hbelow' := Fetched.below rpc item hpc hitem hend (not_lt.1 hbelow)
                    simpa only [Fetcher.give, hend] using hbelow'

end Steps

end BitcoinIndexer.Node
