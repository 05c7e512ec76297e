import BitcoinIndexer.Views.Balances

/-!
# Replaying the chain

A ledger that credits the outputs of each transaction of the chain and debits those it
spends, against the views, which add up what is left unspent.  Extinct blocks and
unconfirmed transactions may say anything.
-/

namespace BitcoinIndexer.Views

open BitcoinIndexer.Types
open BitcoinIndexer.Tables
open BitcoinIndexer.Joins
open BitcoinIndexer.CurrentHeight

/-- What each address has; outputs without address count as one. -/
abbrev Ledger := Option Address → ℤ

namespace Ledger

def credit (ledger : Ledger) (output : OutputRow) : Ledger := fun address =>
  if output.address = address then ledger address + output.value else ledger address

def debit (ledger : Ledger) (output : OutputRow) : Ledger := fun address =>
  if output.address = address then ledger address - output.value else ledger address

end Ledger

def outputsOf (db : Db) (txHashId : HashId) : List OutputRow :=
  db.output.filter fun output => output.txHashId = txHashId

/-- The outputs that the inputs of a transaction name. -/
def outputsSpentBy (db : Db) (txHashId : HashId) : List OutputRow :=
  (db.input.filter fun input => input.txHashId = txHashId).filterMap fun input =>
    db.output.find? fun output => spends output input

def replayTx (db : Db) (ledger : Ledger) (txHashId : HashId) : Ledger :=
  (outputsSpentBy db txHashId).foldl Ledger.debit
    ((outputsOf db txHashId).foldl Ledger.credit ledger)

def txHashIdsOf (db : Db) (block : BlockRow) : List HashId :=
  (db.blockTx.filter fun link => link.blockHashId = block.hashId).map (·.txHashId)

def replayBlock (db : Db) (ledger : Ledger) (block : BlockRow) : Ledger :=
  (txHashIdsOf db block).foldl (replayTx db) ledger

/-- The non-extinct blocks up to a height, from height 0 on. -/
def chainTo (db : Db) (height : BlockHeight) : List BlockRow :=
  (List.range (height + 1)).flatMap fun level =>
    db.block.filter fun block => block.extinct = false ∧ block.height = level

def replay (db : Db) (height : BlockHeight) : Ledger :=
  (chainTo db height).foldl (replayBlock db) fun _ => 0

/-! ## The sum a replay comes to -/

/-- What the outputs of an address are worth. -/
def amount (address : Option Address) (outputs : List OutputRow) : ℕ :=
  ((outputs.filter fun output => output.address = address).map (·.value)).sum

variable {db : Db} {address : Option Address}

theorem amount_cons (output : OutputRow) (outputs : List OutputRow) :
    amount address (output :: outputs) =
      (if output.address = address then output.value else 0) + amount address outputs := by
  by_cases heq : output.address = address <;> simp [amount, heq]

theorem amount_append (outputs more : List OutputRow) :
    amount address (outputs ++ more) = amount address outputs + amount address more := by
  simp [amount]

theorem amount_perm {outputs others : List OutputRow} (hperm : outputs.Perm others) :
    amount address outputs = amount address others :=
  ((hperm.filter _).map _).sum_eq

theorem foldl_credit (outputs : List OutputRow) (ledger : Ledger) :
    outputs.foldl Ledger.credit ledger address = ledger address + amount address outputs := by
  induction outputs generalizing ledger with
  | nil => simp [amount]
  | cons output outputs ih =>
      rw [List.foldl_cons, ih, amount_cons, Ledger.credit]
      split <;> push_cast <;> omega

theorem foldl_debit (outputs : List OutputRow) (ledger : Ledger) :
    outputs.foldl Ledger.debit ledger address = ledger address - amount address outputs := by
  induction outputs generalizing ledger with
  | nil => simp [amount]
  | cons output outputs ih =>
      rw [List.foldl_cons, ih, amount_cons, Ledger.debit]
      split <;> push_cast <;> omega

theorem foldl_replayTx (txHashIds : List HashId) (ledger : Ledger) :
    txHashIds.foldl (replayTx db) ledger address = ledger address +
      amount address (txHashIds.flatMap (outputsOf db)) -
      amount address (txHashIds.flatMap (outputsSpentBy db)) := by
  induction txHashIds generalizing ledger with
  | nil => simp [amount]
  | cons txHashId txHashIds ih =>
      rw [List.foldl_cons, ih, replayTx, foldl_debit, foldl_credit, List.flatMap_cons,
        List.flatMap_cons, amount_append, amount_append]
      push_cast
      omega

/-- The transactions of the chain up to a height. -/
def txHashIdsTo (db : Db) (height : BlockHeight) : List HashId :=
  (chainTo db height).flatMap (txHashIdsOf db)

theorem replay_eq (height : BlockHeight) : replay db height address =
    amount address ((txHashIdsTo db height).flatMap (outputsOf db)) -
      amount address ((txHashIdsTo db height).flatMap (outputsSpentBy db)) := by
  have hfold : replay db height = (txHashIdsTo db height).foldl (replayTx db) fun _ => 0 := by
    rw [txHashIdsTo, List.foldl_flatMap]
    rfl
  rw [hfold, foldl_replayTx, zero_add]

/-! ## The chain in the tables -/

/-- The non-extinct blocks are at the heights `0..n-1`, `current_height` says where a
transaction is confirmed, and the confirmed transactions spend each output at most once
and not below the height it was created at. -/
structure ChainStored (db : Db) (n : ℕ) : Prop extends UniqueKeys db where
  heights : ∀ height, (∃ block ∈ db.block, block.extinct = false ∧ block.height = height) ↔
    height < n
  current : ∀ txHashId height,
    (∃ tx ∈ db.tx, tx.hashId = txHashId ∧ tx.currentHeight = some height) ↔
      MinedAt db txHashId height
  created : ∀ input ∈ db.input, ∀ height, MinedAt db input.txHashId height →
    ∃ output ∈ db.output, spends output input = true ∧
      ∃ level ≤ height, MinedAt db output.txHashId level
  once : ∀ left ∈ db.input, ∀ right ∈ db.input, ∀ level height,
    left.outputTxHashId = right.outputTxHashId → left.outputTxIdx = right.outputTxIdx →
      MinedAt db left.txHashId level → MinedAt db right.txHashId height →
        left.txHashId = right.txHashId

namespace ChainStored

variable {n : ℕ} (h : ChainStored db n) {height : BlockHeight}
include h

theorem minedAt_unique {txHashId : HashId} {level : BlockHeight}
    (hlevel : MinedAt db txHashId level) (hheight : MinedAt db txHashId height) :
    level = height := by
  obtain ⟨tx, htx, hid, hcurrent⟩ := (h.current txHashId level).2 hlevel
  obtain ⟨other, hother, hid', hcurrent'⟩ := (h.current txHashId height).2 hheight
  have heq := List.inj_on_of_nodup_map (h.normal.2 rfl).2.1 htx hother (hid.trans hid'.symm)
  rw [heq, hcurrent'] at hcurrent
  exact (Option.some.inj hcurrent).symm

theorem minedAt_lt {txHashId : HashId} (hmined : MinedAt db txHashId height) : height < n := by
  obtain ⟨-, -, row, hrow, -, -, hextinct, hheight⟩ := hmined
  exact (h.heights height).1 ⟨row, hrow, hextinct, hheight⟩

end ChainStored

theorem mem_chainTo {height : BlockHeight} {block : BlockRow} : block ∈ chainTo db height ↔
    block ∈ db.block ∧ block.extinct = false ∧ block.height ≤ height := by
  simp only [chainTo, List.mem_flatMap, List.mem_range, List.mem_filter, decide_eq_true_iff]
  constructor
  · rintro ⟨level, hlevel, hblock, hextinct, rfl⟩
    exact ⟨hblock, hextinct, Nat.le_of_lt_succ hlevel⟩
  · rintro ⟨hblock, hextinct, hle⟩
    exact ⟨block.height, Nat.lt_succ_of_le hle, hblock, hextinct, rfl⟩

theorem mem_txHashIdsTo {height : BlockHeight} {txHashId : HashId} :
    txHashId ∈ txHashIdsTo db height ↔ ∃ level ≤ height, MinedAt db txHashId level := by
  simp only [txHashIdsTo, txHashIdsOf, List.mem_flatMap, mem_chainTo, List.mem_map,
    List.mem_filter, decide_eq_true_iff]
  constructor
  · rintro ⟨block, ⟨hblock, hextinct, hle⟩, link, ⟨hlink, hhash⟩, hid⟩
    exact ⟨block.height, hle, link, hlink, block, hblock, hid, hhash, hextinct, rfl⟩
  · rintro ⟨level, hle, link, hlink, block, hblock, hid, hhash, hextinct, rfl⟩
    exact ⟨block, ⟨hblock, hextinct, hle⟩, link, ⟨hlink, hhash⟩, hid⟩

theorem UniqueKeys.nodup_chainTo (h : UniqueKeys db) (height : BlockHeight) :
    (chainTo db height).Nodup := by
  rw [chainTo, List.nodup_flatMap]
  refine ⟨fun level _ => h.nodup_block.filter _, List.nodup_range.imp ?_⟩
  intro left right hne block hleft hright
  simp only [List.mem_filter, decide_eq_true_iff] at hleft hright
  exact hne (hleft.2.2.symm.trans hright.2.2)

theorem ChainStored.nodup_txHashIdsTo {n : ℕ} (h : ChainStored db n) (height : BlockHeight) :
    (txHashIdsTo db height).Nodup := by
  rw [txHashIdsTo, List.nodup_flatMap]
  constructor
  · intro block _
    have hlinks := (h.normal.2 rfl).1
    rw [txHashIdsOf]
    apply (hlinks.of_map.filter _).map_on
    intro left hleft right hright hid
    simp only [List.mem_filter, decide_eq_true_iff] at hleft hright
    apply List.inj_on_of_nodup_map hlinks hleft.1 hright.1
    rw [hleft.2, hright.2, hid]
  · apply (h.nodup_chainTo height).imp_of_mem
    intro left right hleft hright hne txHashId hinLeft hinRight
    rw [mem_chainTo] at hleft hright
    simp only [txHashIdsOf, List.mem_map, List.mem_filter, decide_eq_true_iff] at hinLeft hinRight
    obtain ⟨link, ⟨hlink, hhash⟩, hid⟩ := hinLeft
    obtain ⟨other, ⟨hother, hhash'⟩, hid'⟩ := hinRight
    have hminedLeft : MinedAt db txHashId left.height :=
      ⟨link, hlink, left, hleft.1, hid, hhash, hleft.2.1, rfl⟩
    have hminedRight : MinedAt db txHashId right.height :=
      ⟨other, hother, right, hright.1, hid', hhash', hright.2.1, rfl⟩
    exact hne (h.block_eq_of_height hleft.1 hright.1 hleft.2.1 hright.2.1
      (h.minedAt_unique hminedLeft hminedRight))

/-! ## What is left unspent -/

theorem spends_iff {output : OutputRow} {input : InputRow} : spends output input = true ↔
    output.txHashId = input.outputTxHashId ∧ output.txIdx = input.outputTxIdx := by
  rw [spends, decide_eq_true_iff]

theorem UniqueKeys.output_eq (h : UniqueKeys db) {left right : OutputRow} (hleft : left ∈ db.output)
    (hright : right ∈ db.output) (hid : left.txHashId = right.txHashId)
    (hidx : left.txIdx = right.txIdx) : left = right :=
  List.inj_on_of_nodup_map (h.normal.1 (by decide)) hleft hright (Prod.ext hid hidx)

/-- The query by outpoint finds the output that is spent. -/
theorem UniqueKeys.find?_spends (h : UniqueKeys db) {output : OutputRow} {input : InputRow} :
    db.output.find? (fun output => spends output input) = some output ↔
      output ∈ db.output ∧ spends output input = true := by
  constructor
  · intro hfind
    exact ⟨List.mem_of_find?_eq_some hfind,
      List.find?_some (p := fun output => spends output input) hfind⟩
  · rintro ⟨hmem, hspends⟩
    have hsome : (db.output.find? fun output => spends output input).isSome :=
      List.find?_isSome.2 ⟨output, hmem, hspends⟩
    obtain ⟨found, hfound⟩ := Option.isSome_iff_exists.1 hsome
    obtain ⟨hid, hidx⟩ := spends_iff.1 hspends
    obtain ⟨hid', hidx'⟩ := spends_iff.1 (List.find?_some (p := fun output => spends output input)
      hfound)
    rw [hfound, h.output_eq (List.mem_of_find?_eq_some hfound) hmem (hid'.trans hid.symm)
      (hidx'.trans hidx.symm)]

theorem mem_createdHeights {output : OutputRow} {created : BlockHeight} :
    created ∈ createdHeights db output ↔
      ∃ tx ∈ db.tx, tx.hashId = output.txHashId ∧ tx.currentHeight = some created := by
  simp only [createdHeights, List.mem_flatMap, List.mem_filter, decide_eq_true_iff,
    Option.mem_toList, and_assoc]

theorem spentWithin_iff {within : BlockHeight → Bool} {output : OutputRow} :
    spentWithin db within output = true ↔ ∃ input ∈ db.input, spends output input = true ∧
      ∃ tx ∈ db.tx, tx.hashId = input.txHashId ∧ tx.currentHeight.any within = true := by
  simp only [spentWithin, inputTxs, List.any_eq_true, mem_join, Prod.exists, decide_eq_true_iff]
  constructor
  · rintro ⟨input, tx, ⟨hinput, htx, hid⟩, hspends, hwithin⟩
    exact ⟨input, hinput, hspends, tx, htx, hid, hwithin⟩
  · rintro ⟨input, hinput, hspends, tx, htx, hid, hwithin⟩
    exact ⟨input, tx, ⟨hinput, htx, hid⟩, hspends, hwithin⟩

/-- Confirmed at this height or a lower one. -/
def createdWithin (db : Db) (height : BlockHeight) (output : OutputRow) : Bool :=
  (createdHeights db output).any fun created => created ≤ height

namespace ChainStored

variable {n : ℕ} (h : ChainStored db n) {height : BlockHeight}
include h

theorem createdWithin_iff {output : OutputRow} : createdWithin db height output = true ↔
    output.txHashId ∈ txHashIdsTo db height := by
  simp only [createdWithin, List.any_eq_true, mem_createdHeights, h.current, decide_eq_true_iff,
    mem_txHashIdsTo]
  exact exists_congr fun level => and_comm

theorem spentWithin_iff_mem {output : OutputRow} :
    spentWithin db (fun spent => spent ≤ height) output = true ↔
      ∃ input ∈ db.input, spends output input = true ∧ input.txHashId ∈ txHashIdsTo db height := by
  simp only [spentWithin_iff, mem_txHashIdsTo, Option.any_eq_true, decide_eq_true_iff]
  constructor
  · rintro ⟨input, hinput, hspends, tx, htx, hid, level, hcurrent, hle⟩
    exact ⟨input, hinput, hspends, level, hle, (h.current _ _).1 ⟨tx, htx, hid, hcurrent⟩⟩
  · rintro ⟨input, hinput, hspends, level, hle, hmined⟩
    obtain ⟨tx, htx, hid, hcurrent⟩ := (h.current _ _).2 hmined
    exact ⟨input, hinput, hspends, tx, htx, hid, level, hcurrent, hle⟩

theorem createdWithin_of_spentWithin {output : OutputRow} (hmem : output ∈ db.output)
    (hspent : spentWithin db (fun spent => spent ≤ height) output = true) :
    createdWithin db height output = true := by
  obtain ⟨input, hinput, hspends, hconfirmed⟩ := h.spentWithin_iff_mem.1 hspent
  obtain ⟨level, hle, hmined⟩ := mem_txHashIdsTo.1 hconfirmed
  obtain ⟨creator, hcreator, hspends', below, hbelow, hcreated⟩ :=
    h.created input hinput level hmined
  obtain ⟨hid, hidx⟩ := spends_iff.1 hspends
  obtain ⟨hid', hidx'⟩ := spends_iff.1 hspends'
  have heq := h.output_eq hcreator hmem (hid'.trans hid.symm) (hidx'.trans hidx.symm)
  rw [h.createdWithin_iff, mem_txHashIdsTo, ← heq]
  exact ⟨below, hbelow.trans hle, hcreated⟩

/-- The replay credits the outputs created up to the height, each once. -/
theorem credited_perm : ((txHashIdsTo db height).flatMap (outputsOf db)).Perm
    (db.output.filter (createdWithin db height)) := by
  apply flatMap_filter_perm (·.txHashId) db.output (h.nodup_txHashIdsTo height)
  intro output _
  exact h.createdWithin_iff

/-- It debits the outputs spent up to the height, each once. -/
theorem debited_perm : ((txHashIdsTo db height).flatMap (outputsSpentBy db)).Perm
    (db.output.filter (spentWithin db fun spent => spent ≤ height)) := by
  have hinputs := (h.normal.2 rfl).2.2
  have hflat : (txHashIdsTo db height).flatMap (outputsSpentBy db) =
      ((txHashIdsTo db height).flatMap fun txHashId =>
        db.input.filter fun input => input.txHashId = txHashId).filterMap fun input =>
          db.output.find? fun output => spends output input := by
    rw [List.filterMap_flatMap]
    rfl
  have hperm := (flatMap_filter_perm (·.txHashId) db.input (h.nodup_txHashIdsTo height)
    (p := fun input => decide (input.txHashId ∈ txHashIdsTo db height)) fun input _ =>
      decide_eq_true_iff).filterMap fun input => db.output.find? fun output => spends output input
  rw [hflat]
  apply hperm.trans
  rw [List.perm_ext_iff_of_nodup]
  · intro output
    simp only [List.mem_filterMap, List.mem_filter, decide_eq_true_iff, h.find?_spends,
      h.spentWithin_iff_mem]
    constructor
    · rintro ⟨input, ⟨hinput, hconfirmed⟩, hmem, hspends⟩
      exact ⟨hmem, input, hinput, hspends, hconfirmed⟩
    · rintro ⟨hmem, input, hinput, hspends, hconfirmed⟩
      exact ⟨input, ⟨hinput, hconfirmed⟩, hmem, hspends⟩
  · rw [List.Nodup, List.pairwise_filterMap]
    apply (hinputs.of_map.filter _).imp_of_mem
    rintro left right hleft hright hne output hfindLeft _ hfindRight rfl
    simp only [List.mem_filter, decide_eq_true_iff, mem_txHashIdsTo] at hleft hright
    obtain ⟨hid, hidx⟩ := spends_iff.1 (h.find?_spends.1 hfindLeft).2
    obtain ⟨hid', hidx'⟩ := spends_iff.1 (h.find?_spends.1 hfindRight).2
    obtain ⟨hinput, level, -, hmined⟩ := hleft
    obtain ⟨hinput', level', -, hmined'⟩ := hright
    have hspender := h.once left hinput right hinput' level level' (hid.symm.trans hid')
      (hidx.symm.trans hidx') hmined hmined'
    apply hne
    apply List.inj_on_of_nodup_map hinputs hinput hinput'
    rw [← hid, ← hidx, hid', hidx', hspender]
  · exact (h.normal.1 (by decide)).of_map.filter _

end ChainStored

/-- What is unspent after the blocks up to a height. -/
def unspentAt (db : Db) (height : BlockHeight) : List OutputRow :=
  db.output.filter fun output =>
    createdWithin db height output && !spentWithin db (fun spent => spent ≤ height) output

theorem ChainStored.replay_eq_amount {n : ℕ} (h : ChainStored db n) (height : BlockHeight) :
    replay db height address = amount address (unspentAt db height) := by
  have hspent : (db.output.filter (createdWithin db height)).filter
      (spentWithin db fun spent => spent ≤ height) =
        db.output.filter (spentWithin db fun spent => spent ≤ height) := by
    rw [List.filter_filter]
    apply List.filter_congr
    intro output hmem
    cases hwithin : spentWithin db (fun spent => spent ≤ height) output with
    | false => rfl
    | true => rw [h.createdWithin_of_spentWithin hmem hwithin, Bool.and_self]
  have hunspent : (db.output.filter (createdWithin db height)).filter
      (fun output => !spentWithin db (fun spent => spent ≤ height) output) =
        unspentAt db height := by
    rw [List.filter_filter, unspentAt]
    apply List.filter_congr
    intro output _
    exact Bool.and_comm _ _
  have hsplit : amount address _ = amount address _ := amount_perm (List.filter_append_perm
    (spentWithin db fun spent => spent ≤ height) (db.output.filter (createdWithin db height)))
  rw [amount_append, hspent, hunspent] at hsplit
  rw [replay_eq, amount_perm h.credited_perm, amount_perm h.debited_perm]
  omega

/-! ## What the views say -/

theorem amount_filter (p : OutputRow → Bool) (outputs : List OutputRow) :
    amount address (outputs.filter p) = (outputs.map fun output =>
      if output.address = address ∧ p output = true then output.value else 0).sum := by
  induction outputs with
  | nil => rfl
  | cons output outputs ih =>
      by_cases hp : p output = true
      · rw [List.filter_cons_of_pos hp, amount_cons, ih, List.map_cons, List.sum_cons]
        simp [hp]
      · rw [List.filter_cons_of_neg hp, ih, List.map_cons, List.sum_cons]
        simp [hp]

/-- Some transaction that is confirmed has an output of the address. -/
def Received (db : Db) (address : Option Address) : Prop :=
  ∃ output ∈ db.output, output.address = address ∧
    ∃ tx ∈ db.tx, tx.hashId = output.txHashId ∧ tx.currentHeight ≠ none

theorem received_iff : Received db address ↔
    ∃ output ∈ db.output, output.address = address ∧ createdHeights db output ≠ [] := by
  apply exists_congr
  intro output
  apply and_congr_right
  intro _
  apply and_congr_right
  intro _
  constructor
  · rintro ⟨tx, htx, hid, hcurrent⟩
    obtain ⟨created, hcreated⟩ := Option.ne_none_iff_exists'.1 hcurrent
    exact List.ne_nil_of_mem (mem_createdHeights.2 ⟨tx, htx, hid, hcreated⟩)
  · intro hne
    obtain ⟨created, hcreated⟩ := List.exists_mem_of_ne_nil _ hne
    obtain ⟨tx, htx, hid, hcurrent⟩ := mem_createdHeights.1 hcreated
    exact ⟨tx, htx, hid, by simp [hcurrent]⟩

theorem amount_eq_zero_of_not_received {height : BlockHeight} (hnot : ¬ Received db address) :
    amount address (unspentAt db height) = 0 := by
  have hnone : (unspentAt db height).filter (fun output => output.address = address) = [] := by
    rw [List.filter_eq_nil_iff]
    intro output hmem haddress
    rw [unspentAt, List.mem_filter, Bool.and_eq_true, createdWithin, List.any_eq_true] at hmem
    obtain ⟨houtput, ⟨created, hcreated, -⟩, -⟩ := hmem
    exact hnot (received_iff.2 ⟨output, houtput, of_decide_eq_true haddress,
      List.ne_nil_of_mem hcreated⟩)
  rw [amount, hnone]
  rfl

namespace UniqueKeys

variable (h : UniqueKeys db)
include h

/-- A transaction has one row, so an output is created once. -/
theorem createdHeights_cases (output : OutputRow) :
    createdHeights db output = [] ∨ ∃ created, createdHeights db output = [created] := by
  have hnodup : (db.tx.filter fun tx => tx.hashId = output.txHashId).Nodup :=
    (h.normal.2 rfl).2.1.of_map.filter _
  rw [createdHeights]
  cases hrows : db.tx.filter fun tx => tx.hashId = output.txHashId with
  | nil => exact .inl rfl
  | cons tx rows =>
      have hsame : ∀ other ∈ rows, other = tx := by
        intro other hmem
        have hother := List.mem_filter.1 (hrows ▸ List.mem_cons_of_mem tx hmem)
        have htx := List.mem_filter.1 (hrows ▸ List.mem_cons_self)
        simp only [decide_eq_true_iff] at hother htx
        exact List.inj_on_of_nodup_map (h.normal.2 rfl).2.1 hother.1 htx.1
          (hother.2.trans htx.2.symm)
      have hnil : rows = [] := by
        rw [hrows, List.nodup_cons] at hnodup
        apply List.eq_nil_iff_forall_not_mem.2
        intro other hmem
        rw [hsame other hmem] at hmem
        exact hnodup.1 hmem
      rw [hnil]
      cases hcurrent : tx.currentHeight with
      | none => simp [hcurrent]
      | some created => simp [hcurrent]

theorem total_balanceAtHeightEntries {block : BlockRow} (hmem : block ∈ db.block)
    (hextinct : block.extinct = false) :
    total (address, block.height) (balanceAtHeightEntries db) =
      amount address (unspentAt db block.height) := by
  have hothers : ∀ other, other ≠ block → other ∈ db.block →
      total (address, block.height) (db.output.flatMap fun output =>
        (createdHeights db output).flatMap fun created =>
          if other.extinct = false then
            [((output.address, other.height),
              if spentWithin db (fun spent => spent ≤ other.height) output then 0
              else if created ≤ other.height then output.value else 0)]
          else []) = 0 := by
    intro other hne hother
    by_cases hlive : other.extinct = false
    · have hheight : other.height ≠ block.height := fun heq =>
        hne (h.block_eq_of_height hother hmem hlive hextinct heq)
      simp only [hlive, if_true, total_flatMap, total_singleton, Prod.mk.injEq, hheight, and_false,
        if_false]
      simp
    · simp [hlive, total_nil]
  rw [balanceAtHeightEntries, total_flatMap, List.sum_map_eq_nsmul_single block _ hothers,
    List.count_eq_one_of_mem h.nodup_block hmem, one_nsmul, total_flatMap, unspentAt, amount_filter]
  congr 1
  apply List.map_congr_left
  intro output _
  obtain hnone | ⟨created, hcreated⟩ := h.createdHeights_cases output
  · simp [hnone, createdWithin, total_nil]
  · simp only [hcreated, hextinct, if_true, createdWithin, List.flatMap_cons, List.flatMap_nil,
      List.append_nil, total_singleton, List.any_cons, List.any_nil, Bool.or_false]
    by_cases haddress : output.address = address
    · cases spentWithin db (fun spent => spent ≤ block.height) output <;> simp [haddress]
    · simp [haddress]

end UniqueKeys

theorem mem_keys_balanceAtHeightEntries {height : BlockHeight} :
    (address, height) ∈ (balanceAtHeightEntries db).map Prod.fst ↔
      (∃ block ∈ db.block, block.extinct = false ∧ block.height = height) ∧
        Received db address := by
  rw [received_iff]
  simp only [balanceAtHeightEntries, List.map_flatMap, List.mem_flatMap]
  constructor
  · rintro ⟨block, hblock, output, houtput, created, hcreated, hkey⟩
    split at hkey
    · rename_i hextinct
      simp only [List.map_cons, List.map_nil, List.mem_singleton, Prod.mk.injEq] at hkey
      exact ⟨⟨block, hblock, hextinct, hkey.2.symm⟩, output, houtput, hkey.1.symm,
        List.ne_nil_of_mem hcreated⟩
    · cases hkey
  · rintro ⟨⟨block, hblock, hextinct, rfl⟩, output, houtput, rfl, hne⟩
    obtain ⟨created, hcreated⟩ := List.exists_mem_of_ne_nil _ hne
    refine ⟨block, hblock, output, houtput, created, hcreated, ?_⟩
    rw [if_pos hextinct]
    exact List.mem_singleton_self _

theorem mem_keys_balanceEntries :
    address ∈ (balanceEntries db).map Prod.fst ↔ Received db address := by
  rw [received_iff]
  simp only [balanceEntries, List.map_flatMap, List.mem_flatMap, List.map_cons, List.map_nil,
    List.mem_singleton]
  constructor
  · rintro ⟨output, houtput, created, hcreated, rfl⟩
    exact ⟨output, houtput, rfl, List.ne_nil_of_mem hcreated⟩
  · rintro ⟨output, houtput, rfl, hne⟩
    obtain ⟨created, hcreated⟩ := List.exists_mem_of_ne_nil _ hne
    exact ⟨output, houtput, created, hcreated, rfl⟩

/-- Above every confirmed transaction nothing depends on the height. -/
theorem ChainStored.total_balanceEntries {n height : ℕ} (h : ChainStored db n)
    (hlast : height + 1 = n) :
    total address (balanceEntries db) = amount address (unspentAt db height) := by
  have hbelow : ∀ tx ∈ db.tx, ∀ level, tx.currentHeight = some level → level ≤ height := by
    intro tx htx level hcurrent
    have hlt := h.minedAt_lt ((h.current tx.hashId level).1 ⟨tx, htx, rfl, hcurrent⟩)
    rw [← hlast] at hlt
    exact Nat.le_of_lt_succ hlt
  have hspent : ∀ output, spentWithin db (fun _ => true) output =
      spentWithin db (fun spent => spent ≤ height) output := by
    intro output
    rw [Bool.eq_iff_iff, spentWithin_iff, spentWithin_iff]
    simp only [Option.any_eq_true, and_true, decide_eq_true_iff]
    constructor
    · rintro ⟨input, hinput, hspends, tx, htx, hid, level, hcurrent⟩
      exact ⟨input, hinput, hspends, tx, htx, hid, level, hcurrent, hbelow tx htx level hcurrent⟩
    · rintro ⟨input, hinput, hspends, tx, htx, hid, level, hcurrent, _⟩
      exact ⟨input, hinput, hspends, tx, htx, hid, level, hcurrent⟩
  rw [balanceEntries, total_flatMap, unspentAt, amount_filter]
  congr 1
  apply List.map_congr_left
  intro output _
  rw [hspent]
  obtain hnone | ⟨created, hcreated⟩ := h.createdHeights_cases output
  · simp [hnone, createdWithin, total_nil]
  · obtain ⟨tx, htx, -, hcurrent⟩ := mem_createdHeights.1 (hcreated ▸ List.mem_singleton_self created)
    have hle := hbelow tx htx created hcurrent
    simp only [hcreated, createdWithin, List.flatMap_cons, List.flatMap_nil, List.append_nil,
      total_singleton, List.any_cons, List.any_nil, Bool.or_false, hle, decide_true,
      Bool.true_and]
    by_cases haddress : output.address = address
    · cases spentWithin db (fun spent => spent ≤ height) output <;> simp [haddress]
    · simp [haddress]

/-- At every height of the chain the view has one row for each address that has received a
confirmed output, with what the replay comes to, which is nothing for other addresses; the
view without height says the same as the one at the last height. -/
theorem views_agree_with_replay (db : Db) (n : ℕ) (h : ChainStored db n) :
    ((addressBalanceAtHeight db).map Prod.fst).Nodup ∧ ((addressBalance db).map Prod.fst).Nodup ∧
      (∀ address height, height < n →
        (∀ value : ℕ, ((address, height), value) ∈ addressBalanceAtHeight db ↔
          Received db address ∧ (value : ℤ) = replay db height address) ∧
        (¬ Received db address → replay db height address = 0)) ∧
      (∀ address, (∃ value, (address, value) ∈ addressBalance db) ↔ Received db address) ∧
      ∀ height, height + 1 = n → ∀ address value, (address, value) ∈ addressBalance db ↔
        ((address, height), value) ∈ addressBalanceAtHeight db := by
  have hbalance := addressBalance_perm db
  have hatHeight := addressBalanceAtHeight_perm db
  have hrows : ∀ address height, height < n → ∀ value : ℕ,
      ((address, height), value) ∈ addressBalanceAtHeight db ↔
        Received db address ∧ value = amount address (unspentAt db height) := by
    intro address height hlt value
    obtain ⟨block, hblock, hextinct, rfl⟩ := (h.heights height).2 hlt
    rw [hatHeight.mem_iff, mem_sumBy, mem_keys_balanceAtHeightEntries,
      h.total_balanceAtHeightEntries hblock hextinct]
    constructor
    · rintro ⟨⟨_, hreceived⟩, hvalue⟩
      exact ⟨hreceived, hvalue⟩
    · rintro ⟨hreceived, hvalue⟩
      exact ⟨⟨⟨block, hblock, hextinct, rfl⟩, hreceived⟩, hvalue⟩
  refine ⟨?_, ?_, fun address height hlt => ⟨fun value => ?_, fun hnot => ?_⟩, fun address => ?_,
    fun height hlast address value => ?_⟩
  · exact (hatHeight.map Prod.fst).nodup_iff.2 (nodup_map_fst_sumBy _)
  · exact (hbalance.map Prod.fst).nodup_iff.2 (nodup_map_fst_sumBy _)
  · rw [hrows address height hlt, h.replay_eq_amount, Int.natCast_inj]
  · rw [h.replay_eq_amount, amount_eq_zero_of_not_received hnot]
    rfl
  · simp only [hbalance.mem_iff, mem_sumBy, mem_keys_balanceEntries]
    constructor
    · rintro ⟨_, hreceived, _⟩
      exact hreceived
    · intro hreceived
      exact ⟨_, hreceived, rfl⟩
  · rw [hrows address height (by omega), hbalance.mem_iff, mem_sumBy, mem_keys_balanceEntries,
      h.total_balanceEntries hlast]

/-- The conditions in a form that can be evaluated. -/
theorem ChainStored.of_minedHeights {n : ℕ} (hkeys : UniqueKeys db)
    (hheights : ((db.block.filter fun block => block.extinct = false).map (·.height)).Perm
      (List.range n))
    (hcurrent : ∀ tx ∈ db.tx, minedHeights db tx.hashId = tx.currentHeight.toList)
    (hstored : ∀ link ∈ db.blockTx, ∃ tx ∈ db.tx, tx.hashId = link.txHashId)
    (hcreated : ∀ input ∈ db.input, ∀ height ∈ minedHeights db input.txHashId,
      ∃ output ∈ db.output, spends output input = true ∧
        ∃ level ∈ minedHeights db output.txHashId, level ≤ height)
    (honce : ∀ left ∈ db.input, ∀ right ∈ db.input, left.outputTxHashId = right.outputTxHashId →
      left.outputTxIdx = right.outputTxIdx → minedHeights db left.txHashId ≠ [] →
        minedHeights db right.txHashId ≠ [] → left.txHashId = right.txHashId) :
    ChainStored db n where
  toUniqueKeys := hkeys
  heights := by
    intro height
    rw [← List.mem_range, ← hheights.mem_iff]
    simp only [List.mem_map, List.mem_filter, decide_eq_true_iff, and_assoc]
  current := by
    intro txHashId height
    have hrow : ∀ tx ∈ db.tx, tx.currentHeight = some height ↔ MinedAt db tx.hashId height :=
      fun tx htx => currentHeightTrue_of_minedHeights hcurrent tx htx height
    constructor
    · rintro ⟨tx, htx, rfl, hheight⟩
      exact (hrow tx htx).1 hheight
    · intro hmined
      obtain ⟨link, hlink, -, -, rfl, -⟩ := id hmined
      obtain ⟨tx, htx, hid⟩ := hstored link hlink
      exact ⟨tx, htx, hid, (hrow tx htx).2 (hid ▸ hmined)⟩
  created := by
    intro input hinput height hmined
    obtain ⟨output, houtput, hspends, level, hlevel, hle⟩ :=
      hcreated input hinput height (mem_minedHeights.2 hmined)
    exact ⟨output, houtput, hspends, level, hle, mem_minedHeights.1 hlevel⟩
  once := by
    intro left hleft right hright level height hid hidx hminedLeft hminedRight
    exact honce left hleft right hright hid hidx (List.ne_nil_of_mem (mem_minedHeights.2 hminedLeft))
      (List.ne_nil_of_mem (mem_minedHeights.2 hminedRight))

theorem reorganized_chainStored : ChainStored reorganized 2 :=
  .of_minedHeights reorganized_keys (by decide) (by decide) (by decide) (by decide) (by decide)

/-- The extinct block and the unconfirmed transactions do not count. -/
theorem reorganized_replayed :
    let address := addressNamed "b"
    replay reorganized 0 address = 0 ∧ replay reorganized 1 address = 30 ∧
      ((address, 1), 30) ∈ addressBalanceAtHeight reorganized := by
  obtain ⟨-, -, hrows, -⟩ := views_agree_with_replay reorganized 2 reorganized_chainStored
  have hfinal : replay reorganized 1 (addressNamed "b") = 30 := by decide
  refine ⟨by decide, hfinal, ?_⟩
  apply ((hrows (addressNamed "b") 1 (by decide)).1 30).2
  refine ⟨?_, hfinal.symm⟩
  exact ⟨⟨30, 0, [2], addressNamed "b"⟩, by decide, rfl, txNamed 2 (some 1), by decide, rfl, by decide⟩

end BitcoinIndexer.Views
