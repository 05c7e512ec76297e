import Mathlib.Data.List.Basic
import Mathlib.Data.List.Infix

/-!
# Chains kept by truncation

A consumer of blocks keeps the chain of identifiers it has been given: a block of
height `h` replaces everything from `h` on.  `Feeds` is what makes that chain a
chain, `Extends` says that a list of blocks continues one.
-/

namespace BitcoinIndexer.ReferenceChain

/-- What a block must show to be put on a chain. -/
class Link (β : Type) (ι : outParam Type) where
  height : β → ℕ
  ident : β → ι
  prev : β → ι

open Link

variable {β ι : Type} [Link β ι]

/-- `b` may be fed to a consumer whose chain is `chain`. -/
def Feeds (chain : List ι) (b : β) : Prop :=
  height b ≤ chain.length ∧ (0 < height b → chain[height b - 1]? = some (prev b))

instance [DecidableEq ι] (chain : List ι) (b : β) : Decidable (Feeds chain b) := by
  unfold Feeds
  infer_instance

def feed (chain : List ι) (b : β) : List ι :=
  chain.take (height b) ++ [ident b]

/-- `blocks` continue `chain`, each linked to the one before it. -/
def Extends : List ι → List β → Prop
  | _, [] => True
  | chain, b :: blocks =>
      (height b = chain.length ∧ (0 < height b → chain[height b - 1]? = some (prev b))) ∧
        Extends (chain ++ [ident b]) blocks

def idents (blocks : List β) : List ι :=
  blocks.map ident

@[simp]
theorem idents_nil : idents ([] : List β) = [] := rfl

@[simp]
theorem idents_cons (b : β) (blocks : List β) :
    idents (b :: blocks) = ident b :: idents blocks := rfl

@[simp]
theorem idents_append (left right : List β) :
    idents (left ++ right) = idents left ++ idents right :=
  List.map_append

@[simp]
theorem length_idents (blocks : List β) : (idents blocks).length = blocks.length :=
  List.length_map _

@[simp]
theorem extends_nil (chain : List ι) : Extends chain ([] : List β) := trivial

theorem eq_of_idents {left right : List β}
    (hids : ∀ b ∈ left, ∀ other ∈ right, (ident b : ι) = ident other → b = other)
    (hidents : (idents left : List ι) = idents right) : left = right := by
  apply List.ext_getElem?
  intro n
  have hget := congrArg (fun chain => chain[n]?) hidents
  simp only [idents, List.getElem?_map] at hget
  cases hleft : left[n]? with
  | none =>
      rw [hleft] at hget
      exact (Option.map_eq_none_iff.1 hget.symm).symm
  | some b =>
      rw [hleft] at hget
      obtain ⟨other, hright, hid⟩ := Option.map_eq_some_iff.1 hget.symm
      rw [hright, hids b (List.mem_of_getElem? hleft) other (List.mem_of_getElem? hright) hid.symm]

theorem extends_append {chain : List ι} {left right : List β} :
    Extends chain (left ++ right) ↔
      Extends chain left ∧ Extends (chain ++ idents left) right := by
  induction left generalizing chain with
  | nil => simp
  | cons b left ih => simp [Extends, ih, and_assoc]

/-- A block at the tip extends the chain it is fed to. -/
theorem Feeds.extends {chain : List ι} {b : β} (hfeeds : Feeds chain b)
    (htip : height b = chain.length) : Extends chain [b] :=
  ⟨⟨htip, hfeeds.2⟩, trivial⟩

theorem feed_tip {chain : List ι} {b : β} (htip : height b = chain.length) :
    feed chain b = chain ++ [ident b] := by
  simp [feed, htip]

theorem length_feed {chain : List ι} {b : β} (hfeeds : Feeds chain b) :
    (feed chain b).length = height b + 1 := by
  simp [feed, Nat.min_eq_left hfeeds.1]

/-- Heights along an extension count up from the length of the chain. -/
theorem Extends.height_eq {chain : List ι} {blocks : List β}
    (hextends : Extends chain blocks) {index : ℕ} {b : β}
    (hget : blocks[index]? = some b) : height b = chain.length + index := by
  induction blocks generalizing chain index with
  | nil => simp at hget
  | cons head blocks ih =>
      cases index with
      | zero =>
          obtain rfl : head = b := by simpa using hget
          simpa using hextends.1.1
      | succ index =>
          have := ih hextends.2 (by simpa using hget)
          simp only [List.length_append, List.length_singleton] at this
          omega

theorem Extends.height_bounds {chain : List ι} {blocks : List β}
    (hextends : Extends chain blocks) {b : β} (hmem : b ∈ blocks) :
    chain.length ≤ height b ∧ height b < chain.length + blocks.length := by
  obtain ⟨index, hlt, rfl⟩ := List.mem_iff_getElem.1 hmem
  have := hextends.height_eq (List.getElem?_eq_getElem hlt)
  omega

theorem Extends.map_height {chain : List ι} {blocks : List β}
    (hextends : Extends chain blocks) :
    blocks.map height = List.range' chain.length blocks.length := by
  apply List.ext_getElem
  · simp
  · intro index hleft _
    have hlt : index < blocks.length := by simpa using hleft
    simpa using hextends.height_eq (List.getElem?_eq_getElem hlt)

theorem Extends.sorted {chain : List ι} {blocks : List β}
    (hextends : Extends chain blocks) :
    blocks.Pairwise fun left right => height left < height right := by
  have hrange := List.pairwise_lt_range' (s := chain.length) (n := blocks.length)
  rw [← hextends.map_height] at hrange
  exact List.pairwise_map.1 hrange

theorem Extends.nodup {chain : List ι} {blocks : List β}
    (hextends : Extends chain blocks) : blocks.Nodup :=
  hextends.sorted.imp fun hlt heq => by
    subst heq
    exact lt_irrefl _ hlt

/-- The predecessor of a block of an extension is the id below it. -/
theorem Extends.prev_eq {chain : List ι} {blocks : List β}
    (hextends : Extends chain blocks) {b : β} (hmem : b ∈ blocks) (hpos : 0 < height b) :
    (chain ++ idents blocks)[height b - 1]? = some (prev b) := by
  obtain ⟨before, after, rfl⟩ := List.append_of_mem hmem
  obtain ⟨-, ⟨hheight, hprev⟩, -⟩ := extends_append.1 hextends
  have hlt : height b - 1 < (chain ++ idents before).length := by omega
  rw [idents_append, ← List.append_assoc, List.getElem?_append_left hlt]
  exact hprev hpos

/-- The blocks of an extension below a height are its first ones. -/
theorem Extends.filter_lt {chain : List ι} {blocks : List β}
    (hextends : Extends chain blocks) (bound : ℕ) :
    blocks.filter (fun b => decide (height b < bound)) =
      blocks.take (bound - chain.length) := by
  induction blocks generalizing chain with
  | nil => simp
  | cons b blocks ih =>
      have htail := ih hextends.2
      simp only [List.length_append, List.length_singleton] at htail
      have hheight : height b = chain.length := hextends.1.1
      by_cases hlt : height b < bound
      · obtain ⟨gap, hgap⟩ : ∃ gap, bound - chain.length = gap + 1 :=
          ⟨bound - chain.length - 1, by omega⟩
        have htake : bound - (chain.length + 1) = gap := by omega
        simp [hlt, hgap, htail, htake]
      · have hzero : bound - chain.length = 0 := by omega
        have hnext : bound - (chain.length + 1) = 0 := by omega
        simp [hlt, hzero, htail, hnext]

theorem Extends.filter_ge {chain : List ι} {blocks : List β}
    (hextends : Extends chain blocks) (bound : ℕ) :
    blocks.filter (fun b => decide (bound ≤ height b)) =
      blocks.drop (bound - chain.length) := by
  induction blocks generalizing chain with
  | nil => simp
  | cons b blocks ih =>
      have htail := ih hextends.2
      simp only [List.length_append, List.length_singleton] at htail
      have hheight : height b = chain.length := hextends.1.1
      by_cases hge : bound ≤ height b
      · have hzero : bound - chain.length = 0 := by omega
        have hnext : bound - (chain.length + 1) = 0 := by omega
        simp [hge, hzero, htail, hnext]
      · obtain ⟨gap, hgap⟩ : ∃ gap, bound - chain.length = gap + 1 :=
          ⟨bound - chain.length - 1, by omega⟩
        have hdrop : bound - (chain.length + 1) = gap := by omega
        simp [hge, hgap, htail, hdrop]

/-- Cutting an extension leaves an extension. -/
theorem Extends.take {chain : List ι} {blocks : List β}
    (hextends : Extends chain blocks) (count : ℕ) : Extends chain (blocks.take count) := by
  rw [← List.take_append_drop count blocks] at hextends
  exact (extends_append.1 hextends).1

/-- Feeding a block the chain already has at that height only truncates. -/
theorem feed_initial {fed chain : List ι} {b : β} (hfed : fed <+: chain)
    (hle : height b ≤ fed.length) (hget : chain[height b]? = some (ident b)) :
    feed fed b <+: chain := by
  obtain ⟨hlt, heq⟩ := List.getElem?_eq_some_iff.1 hget
  have htake : fed.take (height b) = chain.take (height b) := by
    obtain ⟨rest, rfl⟩ := hfed
    rw [List.take_append_of_le_length hle]
  rw [feed, htake, ← heq, List.take_append_getElem hlt]
  exact List.take_prefix _ _

/-- Feeding is looking only at what lies below the block. -/
theorem Feeds.of_take_eq {left right : List ι} {b : β}
    (hfeeds : Feeds left b) (hle : height b ≤ right.length)
    (htake : left.take (height b) = right.take (height b)) : Feeds right b := by
  refine ⟨hle, fun hpos => ?_⟩
  have hget := hfeeds.2 hpos
  rw [← hget, ← List.getElem?_take_of_lt (show height b - 1 < height b by omega),
    ← List.getElem?_take_of_lt (l := left) (show height b - 1 < height b by omega), htake]

/-- A chain cut at `base` and continued by `blocks`, fed one more block: cut at the
lower of the two heights, with the blocks below the new one kept. -/
theorem extends_feed {chain : List ι} {base : ℕ} {blocks : List β} {b : β}
    (hbase : base ≤ chain.length) (hextends : Extends (chain.take base) blocks)
    (hfeeds : Feeds (chain.take base ++ idents blocks) b) :
    Extends (chain.take (min base (height b)))
        (blocks.filter (fun old => decide (height old < height b)) ++ [b]) ∧
      feed (chain.take base ++ idents blocks) b =
        chain.take (min base (height b)) ++
          idents (blocks.filter (fun old => decide (height old < height b)) ++ [b]) := by
  have hlen : (chain.take base).length = base := by simp [hbase]
  have hfilter := hextends.filter_lt (height b)
  rw [hlen] at hfilter
  rw [hfilter]
  have hle : height b ≤ base + blocks.length := by
    simpa [hbase] using hfeeds.1
  by_cases hlow : height b ≤ base
  · -- the new block replaces everything pending
    have hzero : height b - base = 0 := by omega
    have htake : (chain.take base ++ idents blocks).take (height b) =
        chain.take (height b) := by
      rw [List.take_append_of_le_length (by omega), List.take_take, Nat.min_eq_left hlow]
    have hshort : (chain.take (height b)).length = height b := by simp; omega
    rw [hzero, Nat.min_eq_right hlow]
    refine ⟨?_, ?_⟩
    · have hfeeds' : Feeds (chain.take (height b)) b :=
        hfeeds.of_take_eq (by omega) (by rw [htake, List.take_take, Nat.min_self])
      simpa using hfeeds'.extends hshort.symm
    · rw [feed, htake]
      simp
  · -- the blocks below it stay
    have hmin : min base (height b) = base := by omega
    have htake : (chain.take base ++ idents blocks).take (height b) =
        chain.take base ++ idents (blocks.take (height b - base)) := by
      rw [List.take_append, hlen, List.take_of_length_le (by omega)]
      simp [idents, List.map_take]
    have hshort : (chain.take base ++ idents (blocks.take (height b - base))).length =
        height b := by
      simp only [List.length_append, hlen, length_idents, List.length_take]
      omega
    rw [hmin]
    refine ⟨extends_append.2 ⟨hextends.take _, ?_⟩, ?_⟩
    · exact (hfeeds.of_take_eq (by omega) (by rw [htake, List.take_of_length_le hshort.le])).extends
        hshort.symm
    · rw [feed, htake]
      simp

/-! ## The chain after a sequence of blocks -/

/-- What a consumer of `blocks` holds that held `chain` before them. -/
def consumed (chain : List ι) (blocks : List β) : List ι :=
  blocks.foldl feed chain

@[simp]
theorem consumed_nil (chain : List ι) : consumed chain ([] : List β) = chain := rfl

@[simp]
theorem consumed_append_singleton (chain : List ι) (blocks : List β) (b : β) :
    consumed chain (blocks ++ [b]) = feed (consumed chain blocks) b := by
  simp [consumed]

/-- Blocks that continue the chain from `fork` on replace what is there. -/
theorem consumed_of_extends {chain : List ι} {fork : ℕ} (hfork : fork ≤ chain.length)
    {blocks : List β} (hextends : Extends (chain.take fork) blocks) (hblocks : blocks ≠ []) :
    consumed chain blocks = chain.take fork ++ idents blocks := by
  induction blocks using List.reverseRecOn with
  | nil => exact absurd rfl hblocks
  | append_singleton blocks b ih =>
      obtain ⟨hbefore, ⟨hheight, -⟩, -⟩ := extends_append.1 hextends
      rw [consumed_append_singleton, feed, idents_append, ← List.append_assoc]
      congr 1
      by_cases hnil : blocks = []
      · subst hnil
        simp only [idents_nil, List.append_nil, List.length_take, Nat.min_eq_left hfork] at hheight
        rw [consumed_nil, hheight, idents_nil, List.append_nil]
      · rw [ih hbefore hnil, hheight, List.take_length]

/-- Two chains of the same blocks agree below a height at which they agree. -/
theorem Extends.take_eq {left right : List β} (hleft : Extends [] left) (hright : Extends [] right)
    (hids : ∀ b ∈ left, ∀ other ∈ right, ident b = ident other → b = other) {height : ℕ} {id : ι}
    (hid : (idents left)[height]? = some id) (hother : (idents right)[height]? = some id) :
    left.take (height + 1) = right.take (height + 1) := by
  induction height generalizing id with
  | zero =>
      rw [idents, List.getElem?_map] at hid hother
      obtain ⟨b, hb, rfl⟩ := Option.map_eq_some_iff.1 hid
      obtain ⟨other, hget, heq⟩ := Option.map_eq_some_iff.1 hother
      obtain rfl := hids b (List.mem_of_getElem? hb) other (List.mem_of_getElem? hget) heq.symm
      simp [List.take_add_one, hb, hget]
  | succ height ih =>
      rw [idents, List.getElem?_map] at hid hother
      obtain ⟨b, hb, rfl⟩ := Option.map_eq_some_iff.1 hid
      obtain ⟨other, hget, heq⟩ := Option.map_eq_some_iff.1 hother
      have hmem := List.mem_of_getElem? hb
      have hmem' := List.mem_of_getElem? hget
      obtain rfl := hids b hmem other hmem' heq.symm
      have hheight : Link.height b = height + 1 := by simpa using hleft.height_eq hb
      have hprev := hleft.prev_eq hmem (by omega)
      have hprev' := hright.prev_eq hmem' (by omega)
      simp only [List.nil_append, hheight, Nat.add_sub_cancel] at hprev hprev'
      rw [List.take_add_one, ih hprev hprev', hb, ← hget, ← List.take_add_one]

theorem getElem?_feed_self {chain : List ι} {b : β} (hle : height b ≤ chain.length) :
    (feed chain b)[height b]? = some (ident b) := by
  rw [feed, List.getElem?_append_right (List.length_take_le _ _)]
  simp [Nat.min_eq_left hle]

theorem getElem?_feed_of_lt {chain : List ι} {b : β} {index : ℕ} (hlt : index < height b)
    (hle : height b ≤ chain.length) : (feed chain b)[index]? = chain[index]? := by
  rw [feed, List.getElem?_append_left (by simp; omega), List.getElem?_take_of_lt hlt]

/-- The ids on the way from `id` back over `count` blocks, the oldest first. -/
def ancestorLine (blockOf : ι → Option β) : ℕ → ι → List ι
  | 0, id => [id]
  | count + 1, id =>
      match blockOf id with
      | none => [id]
      | some b => ancestorLine blockOf count (prev b) ++ [id]

/-- Above `low`, each id of the chain is that of a block whose predecessor is the id
below it. -/
def Traced (blockOf : ι → Option β) (low : ℕ) (chain : List ι) : Prop :=
  ∀ index id, low < index → chain[index]? = some id →
    ∃ b, blockOf id = some b ∧ chain[index - 1]? = some (prev b)

theorem traced_of_length_le {blockOf : ι → Option β} {low : ℕ} {chain : List ι}
    (hle : chain.length ≤ low + 1) : Traced blockOf low chain := by
  intro index id hlt hget
  obtain ⟨hindex, -⟩ := List.getElem?_eq_some_iff.1 hget
  omega

theorem Traced.feed {blockOf : ι → Option β} {low : ℕ} {chain : List ι} {b : β}
    (h : Traced blockOf low chain) (hfeeds : Feeds chain b)
    (hblock : blockOf (ident b) = some b) : Traced blockOf low (feed chain b) := by
  intro index id hlow hget
  obtain ⟨hindex, -⟩ := List.getElem?_eq_some_iff.1 hget
  rw [length_feed hfeeds] at hindex
  have hbelow : (ReferenceChain.feed chain b)[index - 1]? = chain[index - 1]? :=
    getElem?_feed_of_lt (by omega) hfeeds.1
  rw [hbelow]
  by_cases htip : index = height b
  · subst htip
    rw [getElem?_feed_self hfeeds.1] at hget
    have hid : ident b = id := Option.some.inj hget
    rw [← hid]
    exact ⟨b, hblock, hfeeds.2 (by omega)⟩
  · rw [getElem?_feed_of_lt (by omega) hfeeds.1] at hget
    exact h index id hlow hget

/-- A traced chain is the line of ancestors of any of its ids. -/
theorem Traced.ancestorLine_eq {blockOf : ι → Option β} {low : ℕ} {chain : List ι}
    (h : Traced blockOf low chain) {count : ℕ} {id : ι}
    (hget : chain[low + count]? = some id) :
    (chain.take (low + count + 1)).drop low = ancestorLine blockOf count id := by
  induction count generalizing id with
  | zero =>
      rw [Nat.add_zero] at hget ⊢
      rw [List.take_add_one, hget, List.drop_append, List.drop_of_length_le (List.length_take_le _ _)]
      obtain ⟨hlow, -⟩ := List.getElem?_eq_some_iff.1 hget
      simp [ancestorLine, Nat.min_eq_left hlow.le]
  | succ count ih =>
      obtain ⟨b, hblock, hprev⟩ := h _ id (by omega) hget
      obtain ⟨hlt, -⟩ := List.getElem?_eq_some_iff.1 hget
      have hbelow : chain[low + count]? = some (prev b) := by
        simpa [← Nat.add_assoc] using hprev
      have hline := ih hbelow
      rw [List.take_add_one, hget, List.drop_append_of_le_length (by simp; omega),
        ← Nat.add_assoc, hline]
      simp [ancestorLine, hblock]

end BitcoinIndexer.ReferenceChain
