import BitcoinIndexer.Process.Safety
import BitcoinIndexer.Views.Follower

/-!
# A follower beside the process

A subscriber calls between any two steps of the process, restarts included.  What it has been
given is at all times a chain of the node, and the stored one when it has come to the end of
the log.
-/

namespace BitcoinIndexer.Process

open BitcoinIndexer.Types
open BitcoinIndexer.Tables
open BitcoinIndexer.ReferenceChain
open BitcoinIndexer.Representation
open BitcoinIndexer.Store
open BitcoinIndexer.ChainState
open BitcoinIndexer.Grounding
open BitcoinIndexer.Following
open BitcoinIndexer.Schedules
open BitcoinIndexer.Guarantees
open BitcoinIndexer.EventSource (Subscriber Abreast Settled.readable asI64 asI64_eq)
open BitcoinIndexer.Follower

/-- A step of the process, or a call of the subscriber. -/
inductive Moment where
  | process (event : Event)
  | poll (limit : UInt64) (fails : Bool)

def Moment.next : Indexer × Subscriber → Moment → Indexer × Subscriber
  | (p, subscriber), .process event => (p.step event, subscriber)
  | (p, subscriber), .poll limit fails => (p, subscriber.poll limit fails p.shared.db)

def watch (moments : List Moment) : Indexer × Subscriber :=
  moments.foldl Moment.next (.initial, .new)

variable {S : Setting} {p : Indexer} {event : Event}

/-- A step adds events at the end of the log only. -/
theorem event_step {found : List BlockHash} (h : Refined S Store.initial found p)
    (hfree : ∀ db commit, S.admits db commit) (hanswers : event.answers (Honest S.given S.network)) :
    p.shared.db.event <+: (p.step event).shared.db.event := by
  have hone : ∀ other ∈ [event], other.answers (Honest S.given S.network) := by simpa using hanswers
  obtain ⟨_, hafter⟩ := refined_run h.inStage hfree hone
  exact events_prefix h hafter

/-- The subscriber stays abreast of the log. -/
theorem abreast_watch (hfree : ∀ db commit, S.admits db commit) {moments : List Moment}
    (hanswers : ∀ event, .process event ∈ moments → event.answers (Honest S.given S.network)) :
    ∃ found, Refined S Store.initial found (watch moments).1 ∧
      ∃ count, Abreast S.given (watch moments).1.shared.db.event count (watch moments).2 := by
  induction moments using List.reverseRecOn with
  | nil =>
      have hinitial : Refined S Store.initial [] .initial := ⟨inStage_initial S, [], trivial, rfl⟩
      exact ⟨[], hinitial, 0, Nat.zero_le _, .nil, rfl⟩
  | append_singleton moments moment ih =>
      obtain ⟨found, hrefined, count, habreast⟩ := ih fun event hmem =>
        hanswers event (List.mem_append_left _ hmem)
      rw [watch, List.foldl_append]
      cases moment with
      | process event =>
          have hanswered := hanswers event (by simp)
          obtain ⟨found', hafter⟩ := hrefined.step event hfree hanswered
          exact ⟨found', hafter, count, habreast.grow (event_step hrefined hfree hanswered)⟩
      | poll limit fails =>
          obtain ⟨t, hsettled⟩ := hrefined.inStage.kept.settled
          exact ⟨found, hrefined, habreast.poll (Settled.readable hsettled) limit fails⟩

/-- Whatever happens to the process and whenever the subscriber calls: applying what it has
been given item by item never fails and gives a chain of blocks of the node, from the genesis
block on.  A call that returns less than its limit completes the chain that is stored. -/
theorem follower_keeps_chain (given : Set BlockData)
    (injective : Set.InjOn BlockData.hashId given) (network : Network) (moments : List Moment)
    (hanswers : ∀ event, .process event ∈ moments → event.answers (Honest given network)) :
    let db := (watch moments).1.shared.db
    let subscriber := (watch moments).2
    (∃ chain, Rooted given chain ∧ follow subscriber.received = some (idents chain)) ∧
      ∀ limit : UInt64, 0 < limit.toNat → limit.toNat < 2 ^ 63 →
        ∃ items last, EventSource.next subscriber.cursor limit db = .ok (items, last) ∧
          (∃ chain, Rooted given chain ∧
            follow (subscriber.received ++ items) = some (idents chain)) ∧
          (items.length < limit.toNat → follow (subscriber.received ++ items) = some db.chain) := by
  intro db subscriber
  let S := unrestricted given injective network
  obtain ⟨_, hrefined, count, habreast⟩ := abreast_watch (S := S) (fun _ _ => trivial) hanswers
  obtain ⟨t, hsettled⟩ := hrefined.inStage.kept.settled
  obtain ⟨chain, hrooted, hfollow, -⟩ := followed injective hsettled.committed habreast.received
  refine ⟨⟨chain, hrooted, hfollow⟩, fun limit hpos hlt => ?_⟩
  have hlimit : asI64 limit = limit.toNat := asI64_eq hlt
  obtain ⟨items, last, hnext, hlength, hafter⟩ :=
    (Settled.readable hsettled).next habreast (by rw [hlimit]; exact Int.natCast_nonneg _)
  obtain ⟨longer, hlonger, hfollowed, hwhole⟩ :=
    followed injective hsettled.committed hafter.received
  refine ⟨items, last, hnext, ⟨longer, hlonger, hfollowed⟩, fun hshort => ?_⟩
  rw [hlimit, Int.toNat_natCast] at hlength hwhole
  have hbounded := habreast.bounded
  have hall : (watch moments).1.shared.db.event.length ≤
      min (count + limit.toNat) (watch moments).1.shared.db.event.length := by
    omega
  rw [← hwhole hall]
  exact hfollowed

/-- One call before the reorg and two behind it, of which one fails. -/
@[irreducible]
def watched : List Moment :=
  (working firstChain 60).map .process ++ .poll 1 false ::
    (working secondChain 60).map .process ++ [.poll 2 false, .poll 9 true]

/-- The subscriber has been told of the block that the reorg replaces, and that it is gone. -/
theorem watched_followed :
    let db := (watch watched).1.shared.db
    let subscriber := (watch watched).2
    subscriber.received.map (·.data) = [false, false, true] ∧ ∃ items last,
      EventSource.next subscriber.cursor 9 db = .ok (items, last) ∧
        follow (subscriber.received ++ items) = some (idents secondChain) := by
  intro db subscriber
  have hanswers : ∀ event, .process event ∈ watched →
      event.answers (Honest {block | block ∈ flipped} .bitcoin) := by
    intro event hmem
    have hcases : event ∈ working firstChain 60 ∨ event ∈ working secondChain 60 := by
      simpa [watched] using hmem
    obtain hfirst | hsecond := hcases
    · exact working_answers (flipped_honest (.inl rfl)) 60 event hfirst
    · exact working_answers (flipped_honest (.inr rfl)) 60 event hsecond
  have hreceived : subscriber.received.map (·.data) = [false, false, true] := by decide +kernel
  have hchain : db.chain = idents secondChain := by decide +kernel
  have hcount : (EventSource.next subscriber.cursor 9 db).toOption.map (·.1.length) = some 2 := by
    decide +kernel
  obtain ⟨-, hnext⟩ := follower_keeps_chain {block | block ∈ flipped} flipped_injective .bitcoin
    watched hanswers
  obtain ⟨items, last, hok, -, hwhole⟩ := hnext 9 (by decide) (by decide)
  rw [show EventSource.next subscriber.cursor 9 db = .ok (items, last) from hok] at hcount
  have hlength : items.length = 2 := Option.some.inj hcount
  have hshort : items.length < (9 : UInt64).toNat := by
    rw [hlength]
    decide
  exact ⟨hreceived, items, last, hok, (hwhole hshort).trans (congrArg some hchain)⟩

end BitcoinIndexer.Process
