import BitcoinIndexer.Process.Safety
import BitcoinIndexer.Views.ChainBalances
import BitcoinIndexer.Views.Follower

/-!
# What the process leaves in the tables

Blocks whose rows are in the tables at one moment of a run have them there at every later one,
also when they have become extinct.  The balance views follow the chain among the stored
blocks.
-/

namespace BitcoinIndexer.Process

open BitcoinIndexer.Types
open BitcoinIndexer.Tables
open BitcoinIndexer.Formatter
open BitcoinIndexer.ReferenceChain
open BitcoinIndexer.StoredRows
open BitcoinIndexer.Representation
open BitcoinIndexer.ChainState
open BitcoinIndexer.MinedTransactions
open BitcoinIndexer.CurrentHeight
open BitcoinIndexer.UniqueKeys
open BitcoinIndexer.StoredTables
open BitcoinIndexer.ChainBalances
open BitcoinIndexer.Worker
open BitcoinIndexer.Pipeline
open BitcoinIndexer.Grounding
open BitcoinIndexer.Guarantees
open BitcoinIndexer.Variants
open BitcoinIndexer.Fees
open BitcoinIndexer.Follower (known_subset)
open BitcoinIndexer.Views

/-! ## A reorg that takes a payment back -/

def paying (tx : Transaction) (payload : Payload) (value : ℕ) : Transaction :=
  { tx with output := tx.output ++ [⟨value, ⟨some payload⟩⟩] }

/-- A transaction that spends the first output of another one. -/
def spending (byte spent : UInt8) : Transaction :=
  ⟨hashStarting byte, 4, 0, [⟨⟨hashStarting spent, 0⟩, []⟩], []⟩

def paidGenesis : BlockData := blockWith 0 1 0 [paying (coinbaseOf 11) "a" 50]

def firstPaid : List BlockData :=
  [paidGenesis, blockWith 1 2 1 [paying (coinbaseOf 12) "b" 20, paying (spending 13 11) "b" 45]]

def secondPaid : List BlockData :=
  [paidGenesis, blockWith 1 3 1 [paying (coinbaseOf 14) "b" 30],
    blockWith 2 4 3 [paying (paying (spending 15 11) "a" 5) "b" 40]]

def allPaid : List BlockData := firstPaid ++ secondPaid.tail

theorem allPaid_injective : Set.InjOn BlockData.hashId {block | block ∈ allPaid} := by
  have hpairs : ∀ left ∈ allPaid, ∀ right ∈ allPaid, left.hashId = right.hashId →
      left = right := by decide
  exact fun left hleft right hright heq => hpairs left hleft right hright heq

theorem allPaid_distinct : Distinct {block | block ∈ allPaid} .bitcoin where
  toOncePerChain := oncePerChain_of_heights allPaid (by decide)
  txids := by
    have hnodup : ∀ block ∈ allPaid, ((block.txs .bitcoin).map (·.1)).Nodup := by decide
    exact hnodup
  inputs := by
    have hnodup : ∀ block ∈ allPaid, ∀ tx ∈ block.data.txdata, (tx.input.map fun input =>
        (hashToHashId input.previousOutput.txid, input.previousOutput.vout)).Nodup := by decide
    exact hnodup

theorem allPaid_determined : Determined (seenIn {block | block ∈ allPaid} .bitcoin) := by
  have hsame : ∀ left ∈ allPaid, ∀ leftTx ∈ left.txs .bitcoin, ∀ right ∈ allPaid,
      ∀ rightTx ∈ right.txs .bitcoin, hashToHashId leftTx.1 = hashToHashId rightTx.1 →
        leftTx = rightTx := by decide
  have hinjective : ∀ left ∈ seenIn {block | block ∈ allPaid} .bitcoin,
      ∀ right ∈ seenIn {block | block ∈ allPaid} .bitcoin,
        hashToHashId left.1 = hashToHashId right.1 → left = right := by
    rintro left ⟨leftBlock, hleftBlock, hleft⟩ right ⟨rightBlock, hrightBlock, hright⟩ hid
    exact hsame leftBlock hleftBlock left hleft rightBlock hrightBlock right hright hid
  refine ⟨fun left hleft right hright hid => ?_, fun left hleft right hright htxid => ?_⟩
  · rw [hinjective left hleft right hright hid]
  · rw [hinjective left hleft right hright (congrArg hashToHashId htxid)]
    exact ⟨rfl, rfl, rfl⟩

theorem allPaid_honest {chain : List BlockData} (hchain : chain = firstPaid ∨ chain = secondPaid) :
    Honest {block | block ∈ allPaid} .bitcoin (serving chain) := by
  have hids : ∀ left ∈ allPaid, ∀ right ∈ allPaid, left.id = right.id → left = right := by decide
  have hall : ∀ chain ∈ [firstPaid, secondPaid], (∀ block ∈ chain, block ∈ allPaid) ∧
      chain.map (·.height) = List.range chain.length := by decide
  obtain ⟨hgiven, hheights⟩ := hall chain (by simpa using hchain)
  exact serving_honest hgiven hheights fun left hleft right hright => hids left hleft right hright

/-- The first process stores one chain, the second one finds the other at the node. -/
@[irreducible]
def repaying : List Event := working firstPaid 80 ++ working secondPaid 80

theorem repaying_answers :
    ∀ event ∈ repaying, event.answers (Honest {block | block ∈ allPaid} .bitcoin) := by
  intro event hmem
  rw [repaying] at hmem
  obtain hfirst | hsecond := List.mem_append.1 hmem
  · exact working_answers (allPaid_honest (.inl rfl)) 80 event hfirst
  · exact working_answers (allPaid_honest (.inr rfl)) 80 event hsecond

/-! ## The stored blocks -/

/-- Every state of a run shows a tree of blocks of the node. -/
theorem settled_run (given : Set BlockData) (injective : Set.InjOn BlockData.hashId given)
    (network : Network) {events : List Event}
    (hanswers : ∀ event ∈ events, event.answers (Honest given network)) :
    ∃ t, Settled (unrestricted given injective network) t
      (Indexer.initial.runFrom events).shared := by
  obtain ⟨_, hrefined⟩ := refined_run (inStage_initial (unrestricted given injective network))
    (fun _ _ => trivial) hanswers
  exact hrefined.inStage.kept.settled

/-- Whatever happens between two moments, what the tables had at the first one they have at the
second one: at each of them they have the rows of some blocks, and those of the first one are
among those of the second one. -/
theorem tables_hold_blocks (given : Set BlockData) (injective : Set.InjOn BlockData.hashId given)
    (network : Network) (events more : List Event)
    (hanswers : ∀ event ∈ events ++ more, event.answers (Honest given network)) :
    let before := (Indexer.initial.runFrom events).shared.db
    let after := (Indexer.initial.runFrom (events ++ more)).shared.db
    ∃ known later, known ⊆ later ∧ (∀ block ∈ later, block ∈ given) ∧
      Stores network known before ∧ Stores network later after := by
  intro before after
  obtain ⟨_, _, hbefore, hafter⟩ := refined_twice injective hanswers
  obtain ⟨t, hsettled⟩ := hbefore.inStage.kept.settled
  obtain ⟨t', hsettled'⟩ := hafter.inStage.kept.settled
  have hlog : before.event <+: after.event := events_prefix hbefore hafter
  exact ⟨t.known, t'.known, known_subset injective hsettled.committed hsettled'.committed hlog,
    hsettled'.given, stores hsettled.committed, stores hsettled'.committed⟩

/-- The first process stores two blocks; with the second one they still are in the tables, also
the one that it has replaced. -/
theorem repaying_holds :
    let before := (Indexer.initial.runFrom (working firstPaid 80)).shared.db
    let after := (Indexer.initial.runFrom (working firstPaid 80 ++ working secondPaid 80)).shared.db
    ∃ known later, known ⊆ later ∧ hashIds known = hashIds firstPaid ∧
      hashIds later = hashIds allPaid ∧ Stores .bitcoin known before ∧
      Stores .bitcoin later after := by
  intro before after
  have hanswers := repaying_answers
  rw [repaying] at hanswers
  obtain ⟨known, later, hsub, -, hknown, hlater⟩ := tables_hold_blocks _ allPaid_injective
    .bitcoin (working firstPaid 80) (working secondPaid 80) hanswers
  have hrows : before.block.map (·.hashId) = hashIds firstPaid ∧
      after.block.map (·.hashId) = hashIds allPaid := by
    decide +kernel
  exact ⟨known, later, hsub, hknown.hashIds_eq.symm.trans hrows.1,
    hlater.hashIds_eq.symm.trans hrows.2, hknown, hlater⟩

/-! ## The balances -/

/-- In the normal schema the old balance views tell the balances of the chain, and the new
ones do wherever `current_height` is true. -/
theorem balances_follow_chain (given : Set BlockData)
    (injective : Set.InjOn BlockData.hashId given) (network : Network)
    (hdistinct : Distinct given network) (hdetermined : Determined (seenIn given network))
    (events : List Event) (hanswers : ∀ event ∈ events, event.answers (Honest given network)) :
    let db := (Indexer.initial.runFrom events).shared.db
    db.schema = .normal →
      ∃ chain, (∀ block ∈ chain, block ∈ given) ∧ Extends [] chain ∧ db.chain = idents chain ∧
        TellsBalances network chain (addressBalanceOld db) ∧
        TellsBalancesAtHeight network chain (addressBalanceAtHeightOld db) ∧
        (CurrentHeightTrue db → TellsBalances network chain (addressBalance db) ∧
          TellsBalancesAtHeight network chain (addressBalanceAtHeight db)) := by
  intro db hschema
  obtain ⟨t, hsettled⟩ := settled_run given injective network hanswers
  have hcommitted := hsettled.committed
  have hshown : Shown given network t db :=
    { distinct := hdistinct
      determined := hdetermined
      known := hsettled.given
      shows := hcommitted.shows
      holds := StoredTables.holds hcommitted
      keys := keysUnique_of_committed hcommitted hschema }
  obtain ⟨hbalance, hatHeight⟩ := hshown.old_views
  exact ⟨t.chain, hshown.chain_given, t.linked, hcommitted.chain_eq, hbalance, hatHeight,
    hshown.new_views⟩

/-- The old view follows the chain; the new one still has what the replaced block paid. -/
theorem repaying_balances :
    let db := (Indexer.initial.runFrom repaying).shared.db
    (some ⟨"b", .bitcoin⟩, 70) ∈ addressBalanceOld db ∧
      (some ⟨"b", .bitcoin⟩, 135) ∈ addressBalance db := by
  intro db
  have hstate : (Indexer.initial.runFrom repaying).shared.db.schema = .normal ∧
      (Indexer.initial.runFrom repaying).shared.db.chain = idents secondPaid ∧
        (some ⟨"b", .bitcoin⟩, 135) ∈
          addressBalance (Indexer.initial.runFrom repaying).shared.db := by
    rw [repaying]
    decide +kernel
  obtain ⟨hschema, hchain, hstale⟩ := hstate
  obtain ⟨chain, hgiven, -, hsame, hbalances, -⟩ := balances_follow_chain _ allPaid_injective
    .bitcoin allPaid_distinct allPaid_determined repaying repaying_answers hschema
  have hids : ∀ left ∈ allPaid, ∀ right ∈ allPaid, left.id = right.id → left = right := by decide
  have hsub : ∀ block ∈ secondPaid, block ∈ allPaid := by decide
  obtain rfl : chain = secondPaid := eq_of_idents
    (fun block hmem other hother => hids block (hgiven block hmem) other (hsub other hother))
    (hsame.symm.trans hchain)
  have hpaid : Paid .bitcoin secondPaid (some ⟨"b", .bitcoin⟩) ∧
      70 = balanceOf .bitcoin secondPaid (some ⟨"b", .bitcoin⟩) := by
    rw [Paid]
    decide
  exact ⟨(hbalances.rows _ _).2 hpaid, hstale⟩

end BitcoinIndexer.Process
