import BitcoinIndexer.Chain.Guarantees

/-!
# The chain the store shows

What `get_hash_by_height` answers between two inserts, however the workers get on with
what they were handed.  Outside a reorg it is the line of the accepted blocks; in a reorg
it is the pending blocks over the line, which is one chain only where the seam closes.
-/

namespace BitcoinIndexer.HashByHeight

open BitcoinIndexer.Types
open BitcoinIndexer.Tables
open BitcoinIndexer.ReferenceChain
open BitcoinIndexer.Worker
open BitcoinIndexer.Store
open BitcoinIndexer.Pipeline
open BitcoinIndexer.ChainState
open BitcoinIndexer.Grounding
open BitcoinIndexer.Following
open BitcoinIndexer.Replacement
open BitcoinIndexer.Reorg
open BitcoinIndexer.Calls
open BitcoinIndexer.Opening
open BitcoinIndexer.Schedules
open BitcoinIndexer.Guarantees
open BitcoinIndexer.Interleaving

/-! ## Asking for hashes -/

/-- A caller that asks for one height after the other. -/
def getHashes : List BlockHeight → StoreM (List (Option BlockHash))
  | [] => pure []
  | height :: heights => do
      let answer ← getHashByHeight height
      let answers ← getHashes heights
      pure (answer :: answers)

/-- The answers a caller may get, with any steps of the workers before each access. -/
def MayAnswer (S : Setting) (c : StoreConfig) (heights : List BlockHeight)
    (answers : List (Option BlockHash)) : Prop :=
  ∃ store w, Returns system (prefetched S) (getHashes heights) c.locals c.shared answers store w

/-- A block that is answered has the one answered below it as its predecessor. -/
def Coherent (given : Set BlockData) (answers : List (BlockHeight × Option BlockHash)) : Prop :=
  ∀ height below above, (height, some below) ∈ answers → (height + 1, some above) ∈ answers →
    ∃ block ∈ given, block.height = height + 1 ∧ block.id = above ∧
      block.data.header.prevBlockhash = below

/-- The pending blocks reach the head, or the last of them is the stored one. -/
def Seamless (store : IndexerStore) (db : Db) : Prop :=
  ∀ height block, store.pendingReorg.lastKeyValue = some (height, block) →
    height + 1 < store.chainBlockCount → hashAtHeight db height = some block.id

variable {S : Setting} {w : World} {store : IndexerStore} {line : List BlockHash}

/-! ## What the store shows -/

/-- The store answers every height from `chain`. -/
inductive Showing (S : Setting) (chain : List BlockHash) (store : IndexerStore) (w : World) :
    Prop where
  | tip (h : AtTip S chain store w)
  | reorg {line : List BlockHash} {base : ℕ} {pending : List BlockData}
      (h : InReorg S line base pending store w) (hchain : chain = overlaid line base pending)

theorem exists_showing (h : Idle S store w) : ∃ chain, Showing S chain store w := by
  obtain ⟨line, htip⟩ | ⟨line, base, pending, hreorg⟩ := h
  · exact ⟨line, .tip htip⟩
  · exact ⟨overlaid line base pending, .reorg hreorg rfl⟩

variable {chain : List BlockHash}

theorem Showing.length_eq (h : Showing S chain store w) : chain.length = store.chainBlockCount := by
  cases h with
  | tip h => exact h.count.symm
  | reorg h hchain => rw [hchain, length_overlaid h, h.count]

theorem Showing.safe_getHashByHeight (h : Showing S chain store w) (height : BlockHeight) :
    SafeIn S (fun answer store' w' => Showing S chain store' w' ∧ answer = chain[height]?)
      (getHashByHeight height) store w := by
  cases h with
  | tip h =>
      apply Safe.mono _ (safe_getHashByHeight_tip h height)
      exact fun _ _ _ hpost => ⟨.tip hpost.1, hpost.2.2⟩
  | reorg h hchain =>
      apply Safe.mono _ (safe_getHashByHeight_reorg h height)
      exact fun _ _ _ hpost => ⟨.reorg hpost.1 hchain, hchain ▸ hpost.2.2⟩

theorem Showing.safe_getHashes (h : Showing S chain store w) (heights : List BlockHeight) :
    SafeIn S (fun answers store' w' => Showing S chain store' w' ∧
        answers = heights.map fun height => chain[height]?)
      (getHashes heights) store w := by
  induction heights generalizing store w with
  | nil => exact ⟨h, rfl⟩
  | cons height heights ih =>
      simp only [getHashes, Prog.bind_eq]
      apply Safe.bind _ (h.safe_getHashByHeight height)
      rintro answer store' w' ⟨hshowing, rfl⟩
      apply Safe.bind _ (ih hshowing)
      rintro answers store'' w'' ⟨hshowing', rfl⟩
      exact ⟨hshowing', rfl⟩

/-- Without workers the answers come at once. -/
theorem returns_getHashByHeight {base : ℕ} {pending : List BlockData}
    (h : InReorg S line base pending store w) (height : BlockHeight) :
    Returns system (prefetched S) (getHashByHeight height) store w
      ((overlaid line base pending)[height]?) store w := by
  simp only [getHashByHeight, Prog.bind_eq, Prog.read_bind]
  apply Returns.loc
  by_cases habove : store.chainBlockCount ≤ height
  · have hnone : (overlaid line base pending)[height]? = none := by
      apply List.getElem?_eq_none
      rw [length_overlaid h]
      exact h.count ▸ habove
    rw [if_pos habove, hnone]
    exact .pure _ _ _
  · rw [if_neg habove, get_overlaid h]
    cases store.pendingReorg.get height with
    | some block => exact .pure _ _ _
    | none =>
        obtain ⟨hinv, t, hgrounded⟩ := h.at_view
        obtain ⟨hquery, hjoin⟩ := query_hashAtHeight hgrounded.toSettled height
        rw [hgrounded.chain_eq hinv h.stopped] at hjoin
        have hstopped : system.exec .pipelineIsNone false w = .done true w := by
          simp [system, exec, h.stopped]
        have hselect : system.exec (.query fun db => queryOpt (db.blocksAtHeight height)) false w =
            .done (w.db.blocksAtHeight height).head? w := by
          simp [system, exec, execSelect, hquery]
        simp only [flushWorkers, readDbBlockHashByHeight, Prog.bind_eq, Prog.perform_bind,
          Prog.act_bind]
        apply Returns.act .refl trivial hstopped
        apply Returns.act .refl trivial hselect
        rw [hjoin]
        exact .pure _ _ _

theorem returns_getHashes {base : ℕ} {pending : List BlockData}
    (h : InReorg S line base pending store w) (heights : List BlockHeight) :
    Returns system (prefetched S) (getHashes heights) store w
      (heights.map fun height => (overlaid line base pending)[height]?) store w := by
  induction heights with
  | nil => exact .pure _ _ _
  | cons height heights ih =>
      exact (returns_getHashByHeight h height).bind (ih.bind (.pure _ _ _))

/-! ## Chains of given blocks -/

/-- Each id is that of a given block on the one below it. -/
def Chained (given : Set BlockData) (chain : List BlockHash) : Prop :=
  ∀ height below above, chain[height]? = some below → chain[height + 1]? = some above →
    ∃ block ∈ given, block.height = height + 1 ∧ block.id = above ∧
      block.data.header.prevBlockhash = below

theorem chained_idents {given : Set BlockData} {blocks : List BlockData}
    (h : Extends [] blocks) (hgiven : ∀ block ∈ blocks, block ∈ given) :
    Chained given (idents blocks) := by
  intro height below above hbelow habove
  rw [idents, List.getElem?_map] at habove
  obtain ⟨block, hget, hid⟩ := Option.map_eq_some_iff.1 habove
  have hmem := List.mem_of_getElem? hget
  have hheight : block.height = height + 1 := (h.height_eq hget).trans (Nat.zero_add _)
  have hpos : 0 < block.height := by
    rw [hheight]
    exact Nat.succ_pos height
  have hprev := h.prev_eq hmem hpos
  change ([] ++ idents blocks)[block.height - 1]? = some block.data.header.prevBlockhash at hprev
  rw [List.nil_append, hheight, Nat.add_sub_cancel, hbelow] at hprev
  exact ⟨block, hgiven block hmem, hheight, hid, (Option.some.inj hprev).symm⟩

theorem chained_line {fed : List BlockHash} {t : BlockTree} {next : List BlockData}
    (h : Grounded S line fed t next w) :
    ∃ blocks, idents blocks = line ∧ Extends [] blocks ∧ ∀ block ∈ blocks, block ∈ S.given := by
  refine ⟨t.chain ++ (flightBlocks w ++ next), ?_, ?_, ?_⟩
  · rw [idents_append]
    exact h.line_eq
  · exact extends_append.2 ⟨t.linked, by simpa using h.extends_chain⟩
  · intro block hmem
    obtain hchain | hnext := List.mem_append.1 hmem
    · exact h.committed.given block (t.stored block hchain)
    · exact h.given block hnext

/-- The pending blocks on the line below them. -/
theorem chained_pending {base : ℕ} {pending : List BlockData}
    (h : InReorg S line base pending store w) :
    Chained S.given line ∧ Chained S.given (line.take base ++ idents pending) := by
  obtain ⟨-, t, hgrounded⟩ := h.at_view
  obtain ⟨blocks, rfl, hextends, hgiven⟩ := chained_line hgrounded
  refine ⟨chained_idents hextends hgiven, ?_⟩
  have htake : (idents blocks).take base = idents (blocks.take base) := List.map_take.symm
  have hpending := h.extends_base
  rw [htake] at hpending ⊢
  rw [← idents_append]
  apply chained_idents
  · exact extends_append.2 ⟨hextends.take base, by simpa using hpending⟩
  · intro block hmem
    obtain hlow | hhigh := List.mem_append.1 hmem
    · exact hgiven block (List.mem_of_mem_take hlow)
    · exact h.given block hhigh

/-! ## The seam -/

section Seam

variable {base : ℕ} {pending : List BlockData} {last : BlockData}

theorem overlaid_below (h : InReorg S line base pending store w) {height : ℕ}
    (hlt : height < base + pending.length) :
    (overlaid line base pending)[height]? = (line.take base ++ idents pending)[height]? := by
  apply List.getElem?_append_left
  rwa [List.length_append, List.length_take, Nat.min_eq_left h.base_le, length_idents]

theorem overlaid_above (h : InReorg S line base pending store w) {height : ℕ}
    (hle : base + pending.length ≤ height) :
    (overlaid line base pending)[height]? = (line)[height]? := by
  have hlen : (line.take base ++ idents pending).length = base + pending.length := by
    rw [List.length_append, List.length_take, Nat.min_eq_left h.base_le, length_idents]
  calc
    (overlaid line base pending)[height]? =
        (line.drop (base + pending.length))[height - (base + pending.length)]? := by
      rw [overlaid, List.getElem?_append_right (hlen ▸ hle), hlen]
    _ = (line)[height]? := by
      rw [List.getElem?_drop, Nat.add_sub_cancel' hle]

/-- The last pending block is where the pending blocks end. -/
theorem last_pending (h : InReorg S line base pending store w) :
    ∃ last, store.pendingReorg.lastKeyValue = some (last.height, last) ∧
      last.height + 1 = base + pending.length ∧
      (line.take base ++ idents pending)[last.height]? = some last.id := by
  obtain ⟨before, last, rfl⟩ : ∃ before last, pending = before ++ [last] :=
    (List.eq_nil_or_concat' pending).resolve_left h.nonempty
  have hget : (before ++ [last])[before.length]? = some last := by simp
  have hheight : last.height = base + before.length := by
    have hlink := h.extends_base.height_eq hget
    rwa [List.length_take, Nat.min_eq_left h.base_le] at hlink
  refine ⟨last, ?_, ?_, ?_⟩
  · simp [OrderedMap.BTreeMap.lastKeyValue, h.entries, byHeight]
  · rw [hheight, List.length_append, List.length_singleton, Nat.add_assoc]
  · rw [hheight, List.getElem?_append_right (by simp), List.length_take, Nat.min_eq_left h.base_le,
      Nat.add_sub_cancel_left, idents, List.getElem?_map, hget]
    rfl

/-- The seam closes exactly where the stored block under it is the last pending one. -/
theorem chained_overlaid_iff (h : InReorg S line base pending store w) :
    Chained S.given (overlaid line base pending) ↔ Seamless store w.db := by
  obtain ⟨hline, hpending⟩ := chained_pending h
  obtain ⟨last, hlast, htop, hid⟩ := last_pending h
  obtain ⟨hinv, t, hgrounded⟩ := h.at_view
  have hstored : ∀ height, hashAtHeight w.db height = (line)[height]? := by
    intro height
    rw [hashAtHeight_eq hgrounded.toSettled, hgrounded.chain_eq hinv h.stopped]
  have hseam : (overlaid line base pending)[last.height]? = some last.id := by
    rw [overlaid_below h (htop ▸ Nat.lt_succ_self _), hid]
  constructor
  · intro hchained height block hkey hlow
    rw [hlast] at hkey
    obtain ⟨rfl, rfl⟩ := Prod.mk.inj (Option.some.inj hkey)
    rw [hstored]
    have habove : last.height + 1 < line.length := h.count ▸ hlow
    have hbelow : last.height < line.length := Nat.lt_of_succ_lt habove
    have hget : (overlaid line base pending)[last.height + 1]? = some (line)[last.height + 1] := by
      rw [overlaid_above h htop.ge, List.getElem?_eq_getElem habove]
    obtain ⟨upper, hupper, -, hname, hprev⟩ := hchained _ _ _ hseam hget
    obtain ⟨stored, hmem, -, hsame, hlink⟩ :=
      hline last.height _ _ (List.getElem?_eq_getElem hbelow) (List.getElem?_eq_getElem habove)
    have heq : upper = stored := by
      apply S.injective hupper hmem
      rw [BlockData.hashId, BlockData.hashId, hname, hsame]
    rw [List.getElem?_eq_getElem hbelow, ← hlink, ← heq, hprev]
  · intro hseamless height below above hbelow habove
    obtain hlt | heq | hgt := Nat.lt_trichotomy (height + 1) (base + pending.length)
    · rw [overlaid_below h (Nat.lt_of_succ_lt hlt)] at hbelow
      rw [overlaid_below h hlt] at habove
      exact hpending height below above hbelow habove
    · obtain rfl : height = last.height := Nat.succ.inj (heq.trans htop.symm)
      rw [overlaid_above h heq.ge] at habove
      obtain ⟨hlt, -⟩ := List.getElem?_eq_some_iff.1 habove
      have hstitch := hseamless _ _ hlast (h.count.symm ▸ hlt)
      rw [hstored] at hstitch
      rw [hseam] at hbelow
      exact hline _ below above (hstitch.trans hbelow) habove
    · rw [overlaid_above h (Nat.le_of_lt_succ hgt)] at hbelow
      rw [overlaid_above h hgt.le] at habove
      exact hline height below above hbelow habove

end Seam

/-! ## The blocks accepted last -/

/-- What a label makes of the ids accepted last: a new process has those the database
shows, an insert replaces the one at its height. -/
def accept (label : StoreLabel) (c : StoreConfig) (last : BlockHeight → Option BlockHash) :
    BlockHeight → Option BlockHash :=
  match label with
  | .call (.start _ _ _) => fun height => c.shared.db.chain[height]?
  | .call (.insert block) => Function.update last block.height (some block.id)
  | _ => last

/-- The id accepted last at each height in a run. -/
def lastAccepted : List StoreLabel → StoreConfig → (BlockHeight → Option BlockHash) →
    BlockHeight → Option BlockHash
  | [], _, last => last
  | label :: labels, c, last =>
      lastAccepted labels (system.next label c) (accept label c last)

/-- At the tip the line is what was accepted last; in a reorg that is so up to the last
pending block, and nothing was accepted above the line. -/
inductive Accepted (S : Setting) (last : BlockHeight → Option BlockHash) (store : IndexerStore)
    (w : World) : Prop where
  | tip {line : List BlockHash} (h : AtTip S line store w)
      (heq : ∀ height, last height = (line)[height]?)
  | reorg {line : List BlockHash} (h : Reorging S line store w)
      (hfed : ∀ height, height < w.fed.length → last height = (w.fed)[height]?)
      (habove : ∀ height, line.length ≤ height → last height = none)

variable {accepted : BlockHeight → Option BlockHash}

theorem Accepted.idle (h : Accepted S accepted store w) : Idle S store w := by
  cases h with
  | tip h => exact h.idle
  | reorg h => exact h.idle

theorem Accepted.step (h : Accepted S accepted store w) {event : WorkerEvent}
    (hevent : (prefetched S).event event w) : Accepted S accepted store (w.step event) := by
  cases h with
  | tip h heq => exact .tip (h.step hevent) heq
  | reorg h hfed habove =>
      obtain ⟨base, pending, hreorg⟩ := h
      rw [step_none hreorg.stopped]
      exact .reorg ⟨base, pending, hreorg⟩ hfed habove

/-- An insert at the tip of what has been given by then. -/
theorem accepted_feed {fed : List BlockHash} {block : BlockData} (hfeeds : Feeds fed block)
    (hfed : ∀ height, height < fed.length → accepted height = (fed)[height]?) :
    ∀ height, height < (feed fed block).length →
      Function.update accepted block.height (some block.id) height = (feed fed block)[height]? := by
  intro height hlt
  rw [length_feed hfeeds] at hlt
  obtain heq | hne := eq_or_ne height block.height
  · subst heq
    rw [Function.update_self]
    exact (getElem?_feed_self hfeeds.1).symm
  · have hbelow : height < Link.height block := Nat.lt_of_le_of_ne (Nat.le_of_lt_succ hlt) hne
    rw [Function.update_of_ne hne, getElem?_feed_of_lt hbelow hfeeds.1]
    exact hfed height (hbelow.trans_le hfeeds.1)

section Insert

variable {fed : List BlockHash} {block : BlockData}

theorem accepted_prolonged (h : Prolonged S line store w) (hfeeds : Feeds fed block)
    (hfed : ∀ height, height < fed.length → accepted height = (fed)[height]?)
    (habove : ∀ height, line.length ≤ height → accepted height = none)
    (heq : w.fed = feed fed block) :
    Accepted S (Function.update accepted block.height (some block.id)) store w := by
  refine .tip h.1 fun height => ?_
  rw [heq]
  obtain hlt | hge := Nat.lt_or_ge height (feed fed block).length
  · exact accepted_feed hfeeds hfed height hlt
  · have hne : height ≠ block.height := by
      rw [length_feed hfeeds] at hge
      exact Nat.ne_of_gt hge
    rw [Function.update_of_ne hne, List.getElem?_eq_none hge]
    exact habove height (h.2.trans (heq ▸ hge))

theorem accepted_reorging (h : Reorging S line store w) (hfeeds : Feeds fed block)
    (hfed : ∀ height, height < fed.length → accepted height = (fed)[height]?)
    (habove : ∀ height, line.length ≤ height → accepted height = none)
    (heq : w.fed = feed fed block) :
    Accepted S (Function.update accepted block.height (some block.id)) store w := by
  refine .reorg h (heq ▸ accepted_feed hfeeds hfed) fun height hge => ?_
  obtain ⟨base, pending, hreorg⟩ := h
  have hlength : (feed fed block).length ≤ line.length := by
    rw [← heq, hreorg.fed_eq, List.length_append, List.length_take, Nat.min_eq_left hreorg.base_le,
      length_idents]
    exact hreorg.below
  have hne : height ≠ block.height := by
    rw [length_feed hfeeds] at hlength
    exact Nat.ne_of_gt (hlength.trans hge)
  rw [Function.update_of_ne hne]
  exact habove height hge

theorem exec_fed {β : Type} (access : Act β) (fails : Bool) (w : World) (h : w.fed = fed) :
    ((system.exec access fails w).after w).fed = fed := by
  have haccessed := accessed_exec access fails w
  change ((exec access fails w).after w).fed = fed
  generalize (exec access fails w).after w = after at haccessed
  cases haccessed with
  | aborted => cases htxn : w.txn <;> simpa [abort, htxn] using h
  | _ => exact h

/-- No call changes what the caller has been given. -/
theorem safe_fed {α : Type} {Q : α → IndexerStore → World → Prop} {prog : StoreM α}
    (hsafe : SafeIn S Q prog store w) (hfed : w.fed = fed) :
    SafeIn S (fun value store' w' => Q value store' w' ∧ w'.fed = fed) prog store w := by
  have hstable : (prefetched S).Stable system fun w => w.fed = fed :=
    fun event _ _ h => (step_fed event).trans h
  exact hsafe.frame hstable (fun access fails w h => exec_fed access fails w h) hfed

theorem safe_insert_accepted (h : Accepted S accepted store w) (hfeeds : Feeds w.fed block)
    (hgiven : block ∈ S.given)
    (hadmits : store.isInReorg = true → block.height = store.chainBlockCount →
      S.admits w.db (planned store w.db block)) :
    SafeIn S (fun _ => Accepted S (Function.update accepted block.height (some block.id)))
      (Store.insert block) store { w with fed := feed w.fed block } := by
  cases h with
  | @tip line h heq =>
      have hfed : ∀ height, height < w.fed.length → accepted height = (w.fed)[height]? := by
        intro height hlt
        obtain ⟨rest, hrest⟩ := h.fed_initial
        rw [heq, ← hrest, List.getElem?_append_left hlt]
      have habove : ∀ height, line.length ≤ height → accepted height = none :=
        fun height hge => (heq height).trans (List.getElem?_eq_none hge)
      apply Safe.mono _ (safe_fed (safe_insert_tip h hfeeds hgiven) rfl)
      rintro _ store' w' ⟨hprolonged | hkept | hreorging, hfed'⟩
      · exact accepted_prolonged hprolonged hfeeds hfed habove hfed'
      · refine .tip hkept fun height => ?_
        obtain rfl | hne := eq_or_ne height block.height
        · have hnew : (w'.fed)[Link.height block]? = some block.id :=
            hfed' ▸ getElem?_feed_self hfeeds.1
          obtain ⟨hlt, -⟩ := List.getElem?_eq_some_iff.1 hnew
          obtain ⟨rest, hrest⟩ := hkept.fed_initial
          rw [Function.update_self, ← hrest]
          exact ((List.getElem?_append_left hlt).trans hnew).symm
        · rw [Function.update_of_ne hne]
          exact heq height
      · exact accepted_reorging hreorging hfeeds hfed habove hfed'
  | reorg h hfed habove =>
      obtain ⟨base, pending, hreorg⟩ := h
      apply Safe.mono _
        (safe_fed (safe_insert_reorg hreorg hfeeds hgiven (hadmits hreorg.isInReorg)) rfl)
      rintro _ store' w' ⟨hprolonged | hreorging, hfed'⟩
      · exact accepted_prolonged hprolonged hfeeds hfed habove hfed'
      · exact accepted_reorging hreorging hfeeds hfed habove hfed'

end Insert

theorem safe_getHashByHeight_accepted (h : Accepted S accepted store w) (height : BlockHeight) :
    SafeIn S (fun _ => Accepted S accepted) (getHashByHeight height) store w := by
  cases h with
  | tip h heq =>
      apply Safe.mono _ (safe_getHashByHeight_tip h height)
      exact fun _ _ _ hpost => .tip hpost.1 heq
  | reorg h hfed habove =>
      obtain ⟨base, pending, hreorg⟩ := h
      apply Safe.mono _ (safe_getHashByHeight_reorg hreorg height)
      rintro _ store' w' ⟨hreorg', hsame, -⟩
      exact .reorg ⟨base, pending, hreorg'⟩ (hsame ▸ hfed) habove

theorem safe_call_accepted {call : Call} {c : StoreConfig} (hcall : (prefetched S).call call c)
    (hsafe : SafeConfig system (prefetched S) (Kept S) (Ends S) (Accepted S accepted) c) :
    SafeIn S (fun _ => Accepted S (accept (.call call) c accepted)) (body call) c.locals
      (enter call c.shared) := by
  have haccepted : c.prog = .pure () → Accepted S accepted c.locals c.shared := by
    intro hreturned
    rw [SafeConfig, hreturned] at hsafe
    exact hsafe
  cases call with
  | start nodeChainHeadHeight network resume =>
      have hkept : Kept S c.shared :=
        hsafe.always (fun _ _ h => h.idle.kept) (fun _ _ _ h => h.1)
      obtain ⟨t, hsettled⟩ := hkept.settled
      have hfresh := fresh_restart hsettled resume
      apply Safe.mono _ (safe_new hfresh hcall nodeChainHeadHeight)
      intro _ store' w' htip
      refine .tip htip fun height => ?_
      rw [accept, hsettled.committed.chain_eq]
  | insert block =>
      obtain ⟨hreturned, hfeeds, hgiven, hadmits⟩ := hcall
      exact safe_insert_accepted (haccepted hreturned) hfeeds hgiven hadmits
  | getHashByHeight height =>
      simp only [body, Prog.bind_eq]
      apply Safe.bind _ (safe_getHashByHeight_accepted (haccepted hcall) height)
      exact fun _ _ _ hpost => hpost

theorem accepted_run (labels : List StoreLabel) (c : StoreConfig)
    (hfollows : (prefetched S).follows system labels c)
    (hsafe : SafeConfig system (prefetched S) (Kept S) (Ends S) (Accepted S accepted) c) :
    SafeConfig system (prefetched S) (Kept S) (Ends S)
      (Accepted S (lastAccepted labels c accepted)) (system.run labels c) := by
  induction labels generalizing c accepted with
  | nil => exact hsafe
  | cons label labels ih =>
      apply ih _ hfollows.2
      cases label with
      | step fails => exact hsafe.advance hfollows.1
      | other event =>
          exact Safe.interfere (fun _ _ _ _ hevent h => h.step hevent) stable_ends c.locals event
            c.shared hfollows.1 hsafe
      | call name =>
          exact (safe_settle (system.body name) c.locals (system.enter name c.shared)).2
            (safe_call_accepted hfollows.1 hsafe)

/-! ## The answers -/

theorem mem_zip_map {α β : Type} {f : α → β} {values : List α} {value : α} {image : β}
    (h : (value, image) ∈ values.zip (values.map f)) : image = f value := by
  induction values with
  | nil => simp at h
  | cons first values ih =>
      obtain heq | hmem := List.mem_cons.1 h
      · obtain ⟨rfl, rfl⟩ := Prod.mk.inj heq
        rfl
      · exact ih hmem

theorem Showing.answers_eq {c : StoreConfig} (h : Showing S chain c.locals c.shared)
    {heights : List BlockHeight} {answers : List (Option BlockHash)}
    (hanswers : MayAnswer S c heights answers) :
    answers = heights.map fun height => chain[height]? := by
  obtain ⟨store, w, hreturns⟩ := hanswers
  exact ((h.safe_getHashes heights).returns hreturns).2

theorem exists_head_iff (store : IndexerStore) (height : BlockHeight) :
    (∃ head, store.getHeadHeight = some head ∧ height ≤ head) ↔ height < store.chainBlockCount := by
  rw [IndexerStore.getHeadHeight]
  split_ifs with hzero
  · simp [hzero]
  · simp only [Option.some.injEq, exists_eq_left']
    exact Nat.le_sub_one_iff_lt (Nat.pos_of_ne_zero hzero)

/-- The answers are one chain exactly where the seam closes. -/
theorem coherent_iff {c : StoreConfig} (h : Idle S c.locals c.shared) :
    (∀ heights answers, MayAnswer S c heights answers → Coherent S.given (heights.zip answers)) ↔
      Seamless c.locals c.shared.db := by
  obtain ⟨line, htip⟩ | ⟨line, base, pending, hreorg⟩ := h
  · refine iff_of_true ?_ fun height block hlast => ?_
    · intro heights answers hanswers height below above hbelow habove
      obtain ⟨-, t, hgrounded⟩ := htip.at_view
      obtain ⟨blocks, rfl, hextends, hgiven⟩ := chained_line hgrounded
      rw [(Showing.tip htip).answers_eq hanswers] at hbelow habove
      exact chained_idents hextends hgiven height below above (mem_zip_map hbelow).symm
        (mem_zip_map habove).symm
    · rw [OrderedMap.BTreeMap.lastKeyValue, htip.pending] at hlast
      cases hlast
  · rw [← chained_overlaid_iff hreorg]
    constructor
    · intro hcoherent height below above hbelow habove
      refine hcoherent [height, height + 1] _ ⟨_, _, returns_getHashes hreorg _⟩ height below above
        ?_ ?_
      · simp [hbelow]
      · simp [habove]
    · intro hchained heights answers hanswers height below above hbelow habove
      rw [(Showing.reorg hreorg rfl).answers_eq hanswers] at hbelow habove
      exact hchained height below above (mem_zip_map hbelow).symm (mem_zip_map habove).symm

/-- Between two calls of any run every height up to the head is answered, outside a reorg
by the block accepted last; and the answers are one chain exactly where the pending blocks
reach the head or end with the stored block at their height. -/
theorem hashes_by_height (given : Set BlockData) (injective : Set.InjOn BlockData.hashId given)
    (network : Network) (labels : List StoreLabel)
    (hfollows : (prefetched (unrestricted given injective network)).follows system labels initial)
    (hreturned : (system.run labels initial).prog = .pure ()) :
    let c := system.run labels initial
    let mayAnswer := MayAnswer (unrestricted given injective network) c
    (∀ heights answers, mayAnswer heights answers → ∀ height answer,
      (height, answer) ∈ heights.zip answers →
        (answer.isSome ↔ ∃ head, c.locals.getHeadHeight = some head ∧ height ≤ head) ∧
        (c.locals.isInReorg = false →
          answer = lastAccepted labels initial (fun _ => none) height)) ∧
    ((∀ heights answers, mayAnswer heights answers → Coherent given (heights.zip answers)) ↔
      Seamless c.locals c.shared.db) := by
  intro c mayAnswer
  let S := unrestricted given injective network
  have hinitial : SafeConfig system (prefetched S) (Kept S) (Ends S) (Accepted S fun _ => none)
      initial := ⟨kept_initial S, .stopped⟩
  have hsafe := accepted_run labels initial hfollows hinitial
  rw [SafeConfig, hreturned] at hsafe
  refine ⟨fun heights answers hanswers height answer hmem => ⟨?_, fun hout => ?_⟩,
    coherent_iff hsafe.idle⟩
  · obtain ⟨chain, hshowing⟩ := exists_showing hsafe.idle
    rw [hshowing.answers_eq hanswers] at hmem
    rw [mem_zip_map hmem, exists_head_iff, ← hshowing.length_eq]
    simp
  · cases hsafe with
    | tip htip heq =>
        rw [(Showing.tip htip).answers_eq hanswers] at hmem
        rw [mem_zip_map hmem, heq]
    | reorg hreorg =>
        obtain ⟨base, pending, hreorg⟩ := hreorg
        rw [hreorg.isInReorg] at hout
        cases hout

theorem mayAnswer_of_alone {c : StoreConfig} {heights : List BlockHeight}
    {answers : List (Option BlockHash)}
    (h : (alone system (getHashes heights) c.locals c.shared).map (·.1) = some answers) :
    MayAnswer S c heights answers := by
  obtain ⟨⟨answers, store, w⟩, halone, rfl⟩ := Option.map_eq_some_iff.1 h
  exact ⟨store, w, returns_of_alone (fun _ _ _ => trivial) halone⟩

theorem flipping_latest :
    let c := system.run flipping initial
    let given := {block | block ∈ flipped}
    MayAnswer (unrestricted given flipped_injective .bitcoin) c [3] [some (hashStarting 6)] ∧
      some (hashStarting 6) = lastAccepted flipping initial (fun _ => none) 3 := by
  intro c given
  have hanswers : MayAnswer (unrestricted given flipped_injective .bitcoin) c [3]
      [some (hashStarting 6)] := mayAnswer_of_alone (by decide +kernel)
  have hreturned : c.prog = .pure () := eq_pure_of_returned (by decide +kernel)
  have htip : c.locals.isInReorg = false := by decide +kernel
  have hhashes := hashes_by_height given flipped_injective .bitcoin flipping flipping_follows
    hreturned
  exact ⟨hanswers, (hhashes.1 _ _ hanswers 3 _ (by simp)).2 htip⟩

/-- Three blocks, and the first of a reorg that does not reach the head yet. -/
def torn : List BlockData := [blockAt 0 1 0, blockAt 1 2 1, blockAt 2 3 2, blockAt 1 4 1]

theorem torn_injective : Set.InjOn BlockData.hashId {block | block ∈ torn} := by
  have hpairs : ∀ left ∈ torn, ∀ right ∈ torn, left.hashId = right.hashId → left = right := by
    decide
  exact fun left hleft right hright heq => hpairs left hleft right hright heq

@[irreducible]
def tearing : List StoreLabel :=
  opening 0 .bitcoin ++ torn.flatMap fun block => calling (.insert block) 30

instance : DecidablePred (· ∈ (unrestricted {block | block ∈ torn} torn_injective
    .bitcoin).given) := fun block => inferInstanceAs (Decidable (block ∈ torn))

/-- The block answered at height 2 is not on the one answered at height 1. -/
theorem torn_answers :
    let c := system.run tearing initial
    let S := unrestricted {block | block ∈ torn} torn_injective .bitcoin
    let answers := [some (hashStarting 4), some (hashStarting 3)]
    (prefetched S).follows system tearing initial ∧ c.prog = .pure () ∧
      c.locals.getHeadHeight = some 2 ∧ MayAnswer S c [1, 2] answers ∧
      ¬ Coherent {block | block ∈ torn} ([1, 2].zip answers) := by
  intro c S answers
  have hlinks : ∀ block ∈ torn, block.id = hashStarting 3 →
      block.data.header.prevBlockhash ≠ hashStarting 4 := by decide
  refine ⟨follows_of_check tearing initial (by decide +kernel),
    eq_pure_of_returned (by decide +kernel), by decide +kernel,
    mayAnswer_of_alone (by decide +kernel), fun hcoherent => ?_⟩
  obtain ⟨block, hmem, -, hid, hprev⟩ :=
    hcoherent 1 (hashStarting 4) (hashStarting 3) (by simp [answers]) (by simp [answers])
  exact hlinks block hmem hid hprev

end BitcoinIndexer.HashByHeight
