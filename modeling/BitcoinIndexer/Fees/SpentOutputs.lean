import BitcoinIndexer.Db.UtxoSetCache
import BitcoinIndexer.Db.Rows

/-!
# Outputs created and spent on a chain

What a chain of blocks creates and spends, under the ids the indexer gives its
transactions, and what makes it valid: every input spends an output that was created
earlier and has not been spent, and no transaction is worth more than its inputs.
-/

namespace BitcoinIndexer.Fees

open BitcoinIndexer.Types
open BitcoinIndexer.Formatter
open BitcoinIndexer.UtxoCache
open BitcoinIndexer.ReferenceChain

abbrev NamedTx := Txid × Transaction

def txsOf (network : Network) (blocks : List BlockData) : List NamedTx :=
  blocks.flatMap (BlockData.txs · network)

def createdBy (tx : NamedTx) : List (HashIdOutPoint × ℕ) :=
  tx.2.output.zipIdx.map fun output => (.fromTxHashAndIdx tx.1 output.2, output.1.value)

def created (txs : List NamedTx) : List (HashIdOutPoint × ℕ) :=
  txs.flatMap createdBy

def createdPoints (txs : List NamedTx) : List HashIdOutPoint :=
  (created txs).map Prod.fst

def spentBy (tx : Transaction) : List HashIdOutPoint :=
  if tx.isCoinBase then [] else tx.input.map fun input => .ofOutPoint input.previousOutput

def spent (txs : List NamedTx) : List HashIdOutPoint :=
  txs.flatMap fun tx => spentBy tx.2

/-- The value of an output that one of `txs` creates. -/
def valueOf (txs : List NamedTx) (point : HashIdOutPoint) : ℕ :=
  (((created txs).find? fun output => output.1 = point).map (·.2)).getD 0

def inputValue (txs : List NamedTx) (tx : Transaction) : ℕ :=
  ((spentBy tx).map (valueOf txs)).sum

/-- What a transaction leaves to the miner. -/
def feeIn (txs : List NamedTx) (tx : Transaction) : ℕ :=
  if tx.isCoinBase then 0 else inputValue txs tx - (tx.output.map (·.value)).sum

structure Valid (network : Network) (chain : List BlockData) : Prop where
  linked : Extends [] chain
  distinct : (chain.map (·.id)).Nodup
  unique : ((txsOf network chain).map fun tx => hashToHashId tx.1).Nodup
  earlier : ∀ (index : ℕ) (hlt : index < (txsOf network chain).length),
    ∀ point ∈ spentBy (txsOf network chain)[index].2,
      point ∈ createdPoints ((txsOf network chain).take index)
  once : (spent (txsOf network chain)).Nodup
  funded : ∀ tx ∈ txsOf network chain, tx.2.isCoinBase = false →
    (tx.2.output.map (·.value)).sum ≤ inputValue (txsOf network chain) tx.2

variable {network : Network} {chain before blocks after : List BlockData} {txs : List NamedTx}

@[simp]
theorem txsOf_append (left right : List BlockData) :
    txsOf network (left ++ right) = txsOf network left ++ txsOf network right := by
  simp [txsOf]

@[simp]
theorem createdPoints_append (left right : List NamedTx) :
    createdPoints (left ++ right) = createdPoints left ++ createdPoints right := by
  simp [createdPoints, created]

@[simp]
theorem spent_append (left right : List NamedTx) :
    spent (left ++ right) = spent left ++ spent right := by
  simp [spent]

theorem createdPoints_subset {left right : List NamedTx} (hsub : left ⊆ right) :
    createdPoints left ⊆ createdPoints right := by
  intro point hmem
  obtain ⟨output, houtput, rfl⟩ := List.mem_map.1 hmem
  obtain ⟨tx, htx, hin⟩ := List.mem_flatMap.1 houtput
  exact List.mem_map_of_mem (List.mem_flatMap.2 ⟨tx, hsub htx, hin⟩)

/-- The inputs of the non-coinbase transactions do not depend on the names. -/
theorem spentOutputs_eq (network : Network) (blocks : List BlockData) :
    spentOutputs blocks = spent (txsOf network blocks) := by
  have hone : ∀ tx : Transaction, (((if tx.isCoinBase then [] else tx.input).map fun input =>
      HashIdOutPoint.ofOutPoint input.previousOutput)) = spentBy tx := by
    intro tx
    unfold spentBy
    split <;> rfl
  have hfilter : ∀ txs : List Transaction,
      ((txs.filter fun tx => !tx.isCoinBase).flatMap fun tx => tx.input) =
        txs.flatMap fun tx => if tx.isCoinBase then [] else tx.input := by
    intro txs
    induction txs with
    | nil => rfl
    | cons tx txs ih => cases hcoinbase : tx.isCoinBase <;> simp [hcoinbase, ih]
  rw [spentOutputs, hfilter, List.map_flatMap, spent, txsOf]
  simp only [hone, List.flatMap_assoc, BlockData.txs, List.flatMap_map]

theorem createdBy_owner {tx : NamedTx} {output : HashIdOutPoint × ℕ}
    (hmem : output ∈ createdBy tx) : output.1.txHashId = hashToHashId tx.1 := by
  obtain ⟨_, -, rfl⟩ := List.mem_map.1 hmem
  rfl

theorem createdBy_nodup (tx : NamedTx) : ((createdBy tx).map Prod.fst).Nodup := by
  have hindices : (tx.2.output.zipIdx.map fun output => output.2).Nodup := by
    rw [List.zipIdx_map_snd]
    exact List.nodup_range'
  have hpoints := hindices.map (f := fun index => HashIdOutPoint.fromTxHashAndIdx tx.1 index)
    fun left right heq => congrArg HashIdOutPoint.vout heq
  rw [List.map_map] at hpoints
  rw [createdBy, List.map_map]
  exact hpoints

/-- Transactions with different ids create different outputs. -/
theorem createdPoints_nodup (hunique : (txs.map fun tx => hashToHashId tx.1).Nodup) :
    (createdPoints txs).Nodup := by
  rw [createdPoints, created, List.map_flatMap, List.nodup_flatMap]
  refine ⟨fun tx _ => createdBy_nodup tx, ?_⟩
  apply (List.pairwise_map.1 hunique).imp
  intro left right hne point hleft hright
  obtain ⟨leftOutput, hleftOutput, rfl⟩ := List.mem_map.1 hleft
  obtain ⟨rightOutput, hrightOutput, heq⟩ := List.mem_map.1 hright
  apply hne
  rw [← createdBy_owner hleftOutput, ← createdBy_owner hrightOutput, heq]

theorem valueOf_eq (hunique : (txs.map fun tx => hashToHashId tx.1).Nodup)
    {output : HashIdOutPoint × ℕ} (hmem : output ∈ created txs) :
    output.2 = valueOf txs output.1 := by
  have hnodup := createdPoints_nodup hunique
  cases hfind : (created txs).find? fun other => other.1 = output.1 with
  | none => simpa using List.find?_eq_none.1 hfind output hmem
  | some other =>
      have hkey : other.1 = output.1 := by simpa using List.find?_some hfind
      have hother : other ∈ created txs := List.mem_of_find?_eq_some hfind
      have heq : other = output := List.inj_on_of_nodup_map hnodup hother hmem hkey
      simp [valueOf, hfind, heq]

namespace Valid

theorem createdPoints_nodup (h : Valid network chain) :
    (createdPoints (txsOf network chain)).Nodup :=
  Fees.createdPoints_nodup h.unique

theorem value_eq (h : Valid network chain) {output : HashIdOutPoint × ℕ}
    (hmem : output ∈ created (txsOf network chain)) :
    output.2 = valueOf (txsOf network chain) output.1 :=
  valueOf_eq h.unique hmem

theorem heights_nodup (h : Valid network chain) : (chain.map (·.height)).Nodup := by
  have hheights : chain.map (·.height) = List.range' 0 chain.length := h.linked.map_height
  rw [hheights]
  exact List.nodup_range'

/-- What the blocks after `before` spend is created in them or before them. -/
theorem spent_created (h : Valid network (before ++ blocks ++ after)) {point : HashIdOutPoint}
    (hmem : point ∈ spent (txsOf network blocks)) :
    point ∈ createdPoints (txsOf network (before ++ blocks)) := by
  obtain ⟨tx, htx, hpoint⟩ := List.mem_flatMap.1 hmem
  obtain ⟨left, right, hsplit⟩ := List.append_of_mem htx
  have hall : txsOf network (before ++ blocks ++ after) =
      (txsOf network before ++ left) ++ tx :: (right ++ txsOf network after) := by
    simp [hsplit]
  have hlt : (txsOf network before ++ left).length <
      (txsOf network (before ++ blocks ++ after)).length := by
    rw [hall]
    simp
  have hget : (txsOf network (before ++ blocks ++ after))[(txsOf network before ++ left).length] =
      tx := by
    simp only [hall, List.getElem_append_right le_rfl, Nat.sub_self, List.getElem_cons_zero]
  have htake : (txsOf network (before ++ blocks ++ after)).take
      (txsOf network before ++ left).length = txsOf network before ++ left := by
    rw [hall, List.take_left]
  have hearlier := h.earlier _ hlt point (by rw [hget]; exact hpoint)
  rw [htake] at hearlier
  apply createdPoints_subset _ hearlier
  rw [txsOf_append, hsplit]
  intro other hother
  obtain hbefore | hleft := List.mem_append.1 hother
  · exact List.mem_append_left _ hbefore
  · exact List.mem_append_right _ (List.mem_append_left _ hleft)

/-- What the blocks spend has not been spent before them. -/
theorem spent_fresh (h : Valid network (before ++ blocks ++ after)) {point : HashIdOutPoint}
    (hmem : point ∈ spent (txsOf network blocks)) : point ∉ spent (txsOf network before) := by
  have honce := h.once
  rw [txsOf_append, txsOf_append, spent_append, spent_append] at honce
  intro hold
  exact (List.nodup_append.1 (List.nodup_append.1 honce).1).2.2 point hold point hmem rfl

theorem spent_nodup (h : Valid network (before ++ blocks ++ after)) :
    (spent (txsOf network blocks)).Nodup := by
  have honce := h.once
  rw [txsOf_append, txsOf_append, spent_append, spent_append] at honce
  exact (List.nodup_append.1 (List.nodup_append.1 honce).1).2.1

end Valid

end BitcoinIndexer.Fees
