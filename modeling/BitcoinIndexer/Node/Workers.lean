import Mathlib.Algebra.Order.Group.Multiset
import Mathlib.Tactic.Abel
import BitcoinIndexer.Node.YieldedChain

/-!
# Where the claimed heights are

A worker holds the height it has claimed until it has sent the block; then the block is
in the channel, and from there it is taken or put aside.  Heights are counted in
multisets, so that a height in two places would be seen.
-/

namespace BitcoinIndexer.Node

open BitcoinIndexer.OrderedMap

variable {ι δ : Type}

namespace Worker

/-- The height a worker has claimed and not sent a block for. -/
def held (w : Worker ι δ) : Option ℕ :=
  match w.pc with
  | .register height | .checkFinish height | .getId height | .getBlock height _
  | .retry height | .send height _ => some height
  | .fetchAdd | .markFetched _ | .returned | .panicked => none

/-- The block a worker is about to send. -/
def sending (w : Worker ι δ) : Option (RpcBlockWithPrevId ι δ) :=
  match w.pc with
  | .send _ item => some item
  | _ => none

/-- Between two of its heights a worker has none in progress, else the one it is at;
it has not panicked. -/
def Orderly (w : Worker ι δ) : Prop :=
  match w.pc with
  | .fetchAdd | .register _ => w.inProgress = .empty
  | .checkFinish height | .getId height | .getBlock height _ | .retry height
  | .markFetched height => w.inProgress = BTreeMap.empty.insert height ()
  | .send height item =>
      w.inProgress = BTreeMap.empty.insert height () ∧ item.block.height = height
  | .returned => True
  | .panicked => False

theorem orderly_new : (new : Worker ι δ).Orderly := rfl

theorem Orderly.step {p q : Prefetcher ι δ} {rpc : Rpc ι δ} {w w' : Worker ι δ}
    (h : w.Orderly) (hrx : p.rx ≠ none) (hworked : Prefetcher.Worked p rpc w w' q) :
    w'.Orderly := by
  cases hworked with
  | claimed inProgress => exact h
  | registered inProgress height =>
      replace h : inProgress = .empty := h
      rw [h]
      exact rfl
  | told => exact trivial
  | untold | identified | noBlock | idFailed | blockGone | blockFailed | retried => exact h
  | fetched inProgress height id data prevBlockId hanswer => exact ⟨h, rfl⟩
  | noMinimum inProgress height hahead =>
      replace h : inProgress = BTreeMap.empty.insert height () := h
      simp [Worker.aheadMinimum, getMinHeightInProgress, h, BTreeMap.firstKeyValue,
        BTreeMap.insert, BTreeMap.empty] at hahead
  | sent inProgress height item channel hchannel hroom => exact h.1
  | disconnected inProgress height item hnone => exact absurd hnone hrx
  | marked inProgress height hget =>
      replace h : inProgress = BTreeMap.empty.insert height () := h
      rw [h]
      apply BTreeMap.ext
      simp [BTreeMap.remove, BTreeMap.insert, BTreeMap.empty]
  | unmarked inProgress height hnone =>
      replace h : inProgress = BTreeMap.empty.insert height () := h
      rw [h, BTreeMap.get_insert_self] at hnone
      cases hnone

end Worker

/-! ## Counting heights -/

/-- The heights from `first` on and below `next`. -/
def heightsFrom (first next : ℕ) : Multiset ℕ := (List.range' first (next - first) : List ℕ)

@[simp]
theorem heightsFrom_self (height : ℕ) : heightsFrom height height = 0 := by
  simp [heightsFrom]

theorem heightsFrom_succ {first next : ℕ} (hle : first ≤ next) :
    heightsFrom first (next + 1) = heightsFrom first next + {next} := by
  have hlength : next + 1 - first = (next - first) + 1 := by omega
  have hlast : first + (next - first) = next := by omega
  rw [heightsFrom, hlength, List.range'_1_concat, hlast]
  rfl

theorem heightsFrom_add {first middle next : ℕ} (hfirst : first ≤ middle) (hnext : middle ≤ next) :
    heightsFrom first next = heightsFrom first middle + heightsFrom middle next := by
  have happend := List.range'_append_1 (s := first) (m := middle - first) (n := next - middle)
  have hlength : middle - first + (next - middle) = next - first := by omega
  rw [Nat.add_sub_cancel' hfirst, hlength] at happend
  rw [heightsFrom, ← happend]
  rfl

theorem mem_heightsFrom {first next height : ℕ} :
    height ∈ heightsFrom first next ↔ first ≤ height ∧ height < next := by
  rw [heightsFrom, Multiset.mem_coe, List.mem_range'_1]
  omega

theorem nodup_heightsFrom (first next : ℕ) : (heightsFrom first next).Nodup :=
  Multiset.coe_nodup.2 List.nodup_range'

/-- Replacing one element of a list exchanges what the two contribute. -/
theorem filterMap_set {α β : Type} (f : α → Option β) {values : List α} {index : ℕ}
    {old : α} (new : α) (hget : values[index]? = some old) :
    (((values.set index new).filterMap f : List β) : Multiset β) + ((f old).toList : Multiset β) =
      ((values.filterMap f : List β) : Multiset β) + ((f new).toList : Multiset β) := by
  induction values generalizing index with
  | nil => simp at hget
  | cons head values ih =>
      have hcons : ∀ (value : α) (rest : List α),
          (((value :: rest).filterMap f : List β) : Multiset β) =
            ((f value).toList : Multiset β) + ((rest.filterMap f : List β) : Multiset β) := by
        intro value rest
        cases hvalue : f value <;> simp [hvalue]
      cases index with
      | zero =>
          simp only [List.getElem?_cons_zero, Option.some.injEq] at hget
          rw [hget, List.set_cons_zero, hcons, hcons]
          abel
      | succ index =>
          simp only [List.getElem?_cons_succ] at hget
          rw [List.set_cons_succ, hcons, hcons, add_assoc, ih hget]
          abel

namespace Prefetcher

/-- Claimed by a worker that has not sent the block yet. -/
def held (p : Prefetcher ι δ) : Multiset ℕ := (p.threadJoins.filterMap Worker.held : List ℕ)

def channelItems (p : Prefetcher ι δ) : List (RpcBlockWithPrevId ι δ) :=
  match p.rx with
  | some channel => channel.items
  | none => []

theorem channelItems_of_rx {p : Prefetcher ι δ} {channel : Channel ι δ}
    {items : List (RpcBlockWithPrevId ι δ)} (hrx : p.rx = some channel)
    (hitems : channel.items = items) : p.channelItems = items := by
  rw [channelItems, hrx]
  exact hitems

def inChannel (p : Prefetcher ι δ) : Multiset ℕ :=
  (p.channelItems.map fun item => item.block.height : List ℕ)

def putAside (p : Prefetcher ι δ) : Multiset ℕ := (p.outOfOrderItems.keys : List ℕ)

/-- Everywhere a claimed height can be while it has not been taken. -/
def underWay (p : Prefetcher ι δ) : Multiset ℕ := p.held + p.inChannel + p.putAside

/-- The blocks that can still reach the iterator. -/
def Carries (p : Prefetcher ι δ) (item : RpcBlockWithPrevId ι δ) : Prop :=
  (∃ w ∈ p.threadJoins, w.sending = some item) ∨ item ∈ p.channelItems ∨
    ∃ height, p.outOfOrderItems.get height = some item

theorem underWay_restarted (p : Prefetcher ι δ) (threadNum height : ℕ) :
    (p.restarted threadNum height).underWay = 0 := by
  have hheld : ∀ count : ℕ,
      (List.replicate count (Worker.new : Worker ι δ)).filterMap Worker.held = [] := by
    intro count
    rw [List.filterMap_eq_nil_iff]
    intro w hmem
    rw [List.eq_of_mem_replicate hmem]
    rfl
  simp [underWay, held, inChannel, channelItems, putAside, restarted, hheld, BTreeMap.keys]

end Prefetcher

theorem Offered.underWay {s : State ι δ} {item : RpcBlockWithPrevId ι δ} {p : Prefetcher ι δ}
    (h : Offered s item p) : s.prefetcher.underWay = p.underWay + {s.prefetcher.curHeight} := by
  cases h with
  | buffered item hphase hget =>
      have hmem := BTreeMap.mem_keys_iff.2 ⟨item, hget⟩
      have hperm := Multiset.coe_eq_coe.2 (BTreeMap.keys_remove_perm hmem)
      simp only [Prefetcher.underWay, Prefetcher.putAside, Prefetcher.held, Prefetcher.inChannel,
        Prefetcher.channelItems]
      rw [hperm, ← Multiset.cons_coe, ← Multiset.singleton_add]
      abel
  | received channel item items hphase hrx hitems hheight =>
      simp only [Prefetcher.underWay, Prefetcher.putAside, Prefetcher.held, Prefetcher.inChannel,
        Prefetcher.channelItems, hrx, hitems, List.map_cons, hheight]
      rw [← Multiset.cons_coe, ← Multiset.singleton_add]
      abel

end BitcoinIndexer.Node
