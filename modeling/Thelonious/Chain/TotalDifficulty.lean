import Thelonious.Lib.Ancestry
import Thelonious.Chain.Lineage

/-!
# Total difficulties

The total difficulty of a block is the sum of what the blocks on the way from
genesis to it add.  The links of the working tree may have other values, but what
is recorded in the database is exact: the links that are inserted have been tested
on top of canonical blocks.
-/

namespace Thelonious

/-- The blocks of a run: no two of them have one hash.  `presented` are those that have
been presented so far, `accepted` those that the processor may accept. -/
structure BlockTree where
  genesis : ChainBlock
  blockOf : Bytes → ChainBlock
  presented : ChainBlock → Prop
  accepted : ChainBlock → Prop
  blockOf_genesis : blockOf genesis.hash = genesis
  prevHash_ne : genesis.prevHash ≠ genesis.hash

namespace BlockTree

variable (tree : BlockTree)

def parentHash (hash : Bytes) : Bytes := (tree.blockOf hash).prevHash

/-- A presented block above genesis. -/
structure Contains (b : ChainBlock) : Prop where
  presented : tree.presented b
  blockOf_hash : tree.blockOf b.hash = b
  ne_genesis : b.hash ≠ tree.genesis.hash
  ne_before : b.hash ≠ tree.genesis.prevHash

def withPresented (presented : ChainBlock → Prop) : BlockTree :=
  { tree with presented := presented }

theorem Contains.withPresented {tree : BlockTree} {presented : ChainBlock → Prop}
    (contained : tree.Contains b) (isPresented : presented b) :
    (tree.withPresented presented).Contains b :=
  ⟨isPresented, contained.blockOf_hash, contained.ne_genesis, contained.ne_before⟩

/-- The tree of a list of blocks with different hashes. -/
def ofList (genesis : ChainBlock) (above : List ChainBlock) (accepted : ChainBlock → Prop)
    (outside : genesis.prevHash ∉ (genesis :: above).map ChainBlock.hash) : BlockTree where
  genesis := genesis
  blockOf hash := ((genesis :: above).find? fun b => b.hash = hash).getD genesis
  presented b := b ∈ above
  accepted := accepted
  blockOf_genesis := by simp
  prevHash_ne same := outside (by simp [same])

theorem contains_ofList {genesis : ChainBlock} {above : List ChainBlock}
    {accepted : ChainBlock → Prop} (distinct : ((genesis :: above).map ChainBlock.hash).Nodup)
    (outside : genesis.prevHash ∉ (genesis :: above).map ChainBlock.hash) (member : b ∈ above) :
    (ofList genesis above accepted outside).Contains b where
  presented := member
  blockOf_hash := by
    cases found : (genesis :: above).find? fun other => decide (other.hash = b.hash) with
    | none =>
        have missing := List.find?_eq_none.mp found b (List.mem_cons_of_mem _ member)
        simp at missing
    | some other =>
        have hashEq : other.hash = b.hash := by simpa using List.find?_some found
        have same : other = b := List.inj_on_of_nodup_map distinct
          (List.mem_of_find?_eq_some found) (List.mem_cons_of_mem _ member) hashEq
        change ((genesis :: above).find? fun other => decide (other.hash = b.hash)).getD genesis = b
        rw [found, same]
        rfl
  ne_genesis same := by
    have fresh := (List.nodup_cons.mp distinct).1
    exact fresh (same ▸ List.mem_map_of_mem member)
  ne_before same := by
    have known : b.hash ∈ (genesis :: above).map ChainBlock.hash :=
      List.mem_map_of_mem (List.mem_cons_of_mem _ member)
    exact outside (same ▸ known)

/-- `path` are the hashes above genesis on the way to `hash`. -/
def Descends (hash : Bytes) (path : List Bytes) : Prop :=
  Ancestry tree.genesis.hash tree.parentHash hash path

/-- The sum of the difficulties on a path, with those of the uncles. -/
def total (path : List Bytes) : Nat := (path.map fun hash => (tree.blockOf hash).weight).sum

variable {tree} {b : ChainBlock} {hash : Bytes} {path : List Bytes} {blocks : List ChainBlock}

theorem total_append (path more : List Bytes) :
    tree.total (path ++ more) = tree.total path + tree.total more := by
  simp [total]

theorem Contains.total_hash (contained : tree.Contains b) : tree.total [b.hash] = b.weight := by
  simp [total, contained.blockOf_hash]

theorem Contains.descends (contained : tree.Contains b)
    (descends : tree.Descends b.prevHash path) : tree.Descends b.hash (path ++ [b.hash]) := by
  refine .child contained.ne_genesis ?_
  rw [parentHash, contained.blockOf_hash]
  exact descends

theorem Contains.descends_parent (contained : tree.Contains b)
    (descends : tree.Descends b.hash path) :
    ∃ before, path = before ++ [b.hash] ∧ tree.Descends b.prevHash before := by
  rcases descends.cases_parent with ⟨isGenesis, -⟩ | ⟨-, before, pathEq, descends⟩
  · exact absurd isGenesis contained.ne_genesis
  · rw [parentHash, contained.blockOf_hash] at descends
    exact ⟨before, pathEq, descends⟩

/-- The blocks of a chain on top of a block with an ancestry. -/
theorem descends_chain (descends : tree.Descends hash path) (linked : HashLinked blocks)
    (contained : ∀ b ∈ blocks, tree.Contains b) (first : ∀ b ∈ blocks.head?, b.prevHash = hash) :
    tree.Descends ((hash :: blocks.map ChainBlock.hash).getLast (List.cons_ne_nil _ _))
      (path ++ blocks.map ChainBlock.hash) := by
  apply Ancestry.append descends
  · rw [List.isChain_cons]
    constructor
    · intro next nextEq
      obtain ⟨b, bEq, rfl⟩ := Option.map_eq_some_iff.mp (List.head?_map.symm.trans nextEq)
      rw [parentHash, (contained b (List.mem_of_mem_head? bEq)).blockOf_hash]
      exact first b bEq
    · rw [List.isChain_map]
      refine linked.imp_of_mem_imp ?_
      intro up down _ member follows
      rw [parentHash, (contained down member).blockOf_hash]
      exact follows
  · intro other member
    obtain ⟨b, bMember, rfl⟩ := List.mem_map.mp member
    exact (contained b bMember).ne_genesis

theorem descends_last {last : ChainBlock} (descends : tree.Descends hash path)
    (linked : HashLinked blocks) (contained : ∀ b ∈ blocks, tree.Contains b)
    (first : ∀ b ∈ blocks.head?, b.prevHash = hash) (lastEq : blocks.getLast? = some last) :
    tree.Descends last.hash (path ++ blocks.map ChainBlock.hash) := by
  have whole := descends_chain descends linked contained first
  have lastHash :
      (hash :: blocks.map ChainBlock.hash).getLast (List.cons_ne_nil _ _) = last.hash := by
    rw [List.getLast_eq_iff_getLast?_eq_some, List.getLast?_cons, List.getLast?_map, lastEq]
    rfl
  rwa [lastHash] at whole

theorem total_hashes (contained : ∀ b ∈ blocks, tree.Contains b) :
    tree.total (blocks.map ChainBlock.hash) = (blocks.map ChainBlock.weight).sum := by
  rw [total, List.map_map]
  congr 1
  refine List.map_congr_left fun b member => ?_
  simp [(contained b member).blockOf_hash]

theorem nodup_hashes (descends : tree.Descends hash path) (linked : HashLinked blocks)
    (contained : ∀ b ∈ blocks, tree.Contains b) (first : ∀ b ∈ blocks.head?, b.prevHash = hash) :
    (blocks.map ChainBlock.hash).Nodup :=
  (List.nodup_append.mp (descends_chain descends linked contained first).nodup).2.1

end BlockTree

namespace ChainManager

variable {σ : Type} {m start after : ChainManager σ} {tree : BlockTree}
variable {process : ChainManager σ → ChainBlock → ChainBlock → Bool × σ}

/-- The processor accepts no other blocks. -/
def Judges (process : ChainManager σ → ChainBlock → ChainBlock → Bool × σ) (tree : BlockTree) :
    Prop :=
  ∀ {m : ChainManager σ} {block parent : ChainBlock}, (process m block parent).1 = true →
    tree.accepted block

theorem judges_of_fair
    (fair : ∀ m block parent, (process m block parent).1 = true ↔ tree.accepted block) :
    Judges process tree :=
  fun {m block parent} => (fair m block parent).mp

theorem lookup_blocks_boot (genesis : ChainBlock) (processor : σ) (hash : Bytes) :
    AList.lookup hash (boot genesis processor).blocks =
      if hash = genesis.hash then some genesis else none :=
  lookup_blocks_add _ genesis hash

theorem lookup_infos_add (m : ChainManager σ) (block : ChainBlock) (hash : Bytes) :
    AList.lookup hash (m.add block).infos =
      if hash = block.hash then
        some ⟨(m.add block).currentBlockNumber, block.hash, block.prevHash, m.td⟩
      else AList.lookup hash m.infos := by
  split
  · rename_i same
    subst same
    exact AList.lookup_insert _
  · rename_i different
    exact AList.lookup_insert_ne different

/-- What holds in every state of a run: the database has whole ancestries, its records are
exact, and the links are blocks of the tree. -/
structure Sound (tree : BlockTree) (m : ChainManager σ) : Prop where
  recorded : Recorded m
  fits : TreeFits m
  origin : AList.lookup tree.genesis.hash m.blocks = some tree.genesis
  before : AList.lookup tree.genesis.prevHash m.blocks = none
  stored {hash : Bytes} {b : ChainBlock} : AList.lookup hash m.blocks = some b →
    b = tree.genesis ∨ tree.Contains b
  approved {hash : Bytes} {b : ChainBlock} : AList.lookup hash m.blocks = some b →
    hash ≠ tree.genesis.hash → tree.accepted b
  descends {hash : Bytes} : (AList.lookup hash m.blocks).isSome →
    ∃ path, tree.Descends hash path ∧ ∀ other ∈ path, (AList.lookup other m.blocks).isSome
  informed {hash : Bytes} : (AList.lookup hash m.blocks).isSome →
    (AList.lookup hash m.infos).isSome
  exactly {hash : Bytes} {info : BlockInfo} : AList.lookup hash m.infos = some info →
    (AList.lookup hash m.blocks).isSome ∧
      ∃ path, tree.Descends hash path ∧ info.td = tree.total path
  link {l : LinkRef} : l < m.nextLink → tree.Contains (m.links l).block
  processed {l : LinkRef} : l < m.nextLink → (m.links l).td.isSome →
    tree.accepted (m.links l).block ∧ ∃ path, tree.Descends (m.links l).block.hash path

/-- The total difficulty of the manager is the one of its current block. -/
def Current (tree : BlockTree) (m : ChainManager σ) : Prop :=
  ∃ path, tree.Descends m.currentBlock.hash path ∧ m.td = tree.total path

/-- The link has the total difficulty of its block. -/
def Exact (tree : BlockTree) (m : ChainManager σ) (l : LinkRef) : Prop :=
  ∃ path, tree.Descends (m.links l).block.hash path ∧ (m.links l).td = some (tree.total path)

theorem Current.of_canonical_eq (current : Current tree m) (same : after.canonical = m.canonical) :
    Current tree after := by
  have blockEq : after.currentBlock = m.currentBlock := congrArg CanonicalPart.currentBlock same
  have tdEq : after.td = m.td := congrArg CanonicalPart.td same
  rw [Current, blockEq, tdEq]
  exact current

namespace Sound

theorem boot (tree : BlockTree) (processor : σ) : Sound tree (boot tree.genesis processor) := by
  have blocksEq := lookup_blocks_boot tree.genesis processor
  have infosEq (hash : Bytes) (info : BlockInfo) : AList.lookup hash
      (ChainManager.boot tree.genesis processor).infos = some info →
        hash = tree.genesis.hash ∧ info.td = 0 := by
    intro found
    have cases := (lookup_infos_add _ tree.genesis hash).symm.trans found
    split at cases
    · rename_i same
      cases cases
      exact ⟨same, rfl⟩
    · exact absurd cases (by simp)
  constructor
  case recorded => exact .boot _ processor
  case fits => exact .boot _ processor
  case origin => rw [blocksEq, if_pos rfl]
  case before => rw [blocksEq, if_neg tree.prevHash_ne]
  case stored =>
    intro hash b found
    rw [blocksEq] at found
    split at found
    · exact .inl (Option.some.inj found).symm
    · exact absurd found (by simp)
  case approved =>
    intro hash b found above
    rw [blocksEq, if_neg above] at found
    exact absurd found (by simp)
  case descends =>
    intro hash some
    rw [blocksEq] at some
    split at some
    · rename_i same
      exact ⟨[], same ▸ .root, fun other member => absurd member List.not_mem_nil⟩
    · exact absurd some (by simp)
  case informed =>
    intro hash some
    rw [blocksEq] at some
    split at some
    · rename_i same
      rw [same]
      exact Option.isSome_of_eq_some (AList.lookup_insert _)
    · exact absurd some (by simp)
  case exactly =>
    intro hash info found
    obtain ⟨rfl, tdEq⟩ := infosEq hash info found
    refine ⟨?_, [], .root, tdEq⟩
    rw [blocksEq, if_pos rfl]
    rfl
  case link => exact fun {l} below => absurd below (Nat.not_lt_zero l)
  case processed => exact fun {l} below => absurd below (Nat.not_lt_zero l)

/-- A step that leaves the database alone. -/
theorem of_store_eq (sound : Sound tree m) (recorded : Recorded after) (fits : TreeFits after)
    (blocksEq : after.blocks = m.blocks) (infosEq : after.infos = m.infos)
    (link : ∀ {l}, l < after.nextLink → tree.Contains (after.links l).block)
    (processed : ∀ {l}, l < after.nextLink → (after.links l).td.isSome →
      tree.accepted (after.links l).block ∧
        ∃ path, tree.Descends (after.links l).block.hash path) : Sound tree after where
  recorded := recorded
  fits := fits
  origin := by rw [blocksEq]; exact sound.origin
  before := by rw [blocksEq]; exact sound.before
  stored := by rw [blocksEq]; exact sound.stored
  approved := by rw [blocksEq]; exact sound.approved
  descends := by rw [blocksEq]; exact sound.descends
  informed := by rw [blocksEq, infosEq]; exact sound.informed
  exactly := by rw [blocksEq, infosEq]; exact sound.exactly
  link := link
  processed := processed

theorem setHead (sound : Sound tree m) {hash : Bytes} {block : ChainBlock}
    (found : AList.lookup hash m.blocks = some block) : Sound tree (m.setHead block hash) :=
  sound.of_store_eq (sound.recorded.setHead found) (sound.fits.setHead block hash) rfl rfl
    sound.link sound.processed

theorem forget (sound : Sound tree m) (path : List LinkRef) : Sound tree (m.forget path) :=
  sound.of_store_eq (sound.recorded.forget path) (sound.fits.forget path) rfl rfl
    sound.link sound.processed

theorem allocates (sound : Sound tree m) {blocks : List ChainBlock} {chain : List LinkRef}
    (contained : ∀ b ∈ blocks, tree.Contains b) (allocates : Allocates m blocks after chain) :
    Sound tree after := by
  refine sound.of_store_eq (sound.recorded.allocates allocates)
    (sound.fits.allocates sound.recorded allocates) allocates.blocks_kept allocates.infos_kept ?_ ?_
  · intro l below
    by_cases old : l < m.nextLink
    · rw [allocates.kept old]
      exact sound.link old
    · have member := allocates.fresh.mpr ⟨not_lt.mp old, below⟩
      apply contained
      rw [← allocates.blocks_eq]
      exact List.mem_map_of_mem member
  · intro l below some
    by_cases old : l < m.nextLink
    · rw [allocates.kept old] at some ⊢
      exact sound.processed old some
    · have blank := (allocates.blank (allocates.fresh.mpr ⟨not_lt.mp old, below⟩)).1
      rw [blank] at some
      exact absurd some (by simp)

theorem add (sound : Sound tree m) {td : Nat} {block : ChainBlock} {path : List Bytes}
    (contained : tree.Contains block) (accepted : tree.accepted block)
    (onTop : (AList.lookup block.prevHash m.blocks).isSome) (leads : tree.Descends block.hash path)
    (tdEq : td = tree.total path) :
    Sound tree ((m.setTotalDifficulty td).add block) := by
  have grown (hash : Bytes) (some : (AList.lookup hash m.blocks).isSome) :
      (AList.lookup hash ((m.setTotalDifficulty td).add block).blocks).isSome := by
    rw [lookup_blocks_add]
    split
    · rfl
    · exact some
  constructor
  case recorded => exact sound.recorded.add td block
  case fits => exact sound.fits.add sound.recorded td block
  case origin =>
    rw [lookup_blocks_add, if_neg (Ne.symm contained.ne_genesis)]
    exact sound.origin
  case before =>
    rw [lookup_blocks_add, if_neg (Ne.symm contained.ne_before)]
    exact sound.before
  case stored =>
    intro hash b found
    rw [lookup_blocks_add] at found
    split at found
    · exact .inr (Option.some.inj found ▸ contained)
    · exact sound.stored found
  case approved =>
    intro hash b found above
    rw [lookup_blocks_add] at found
    split at found
    · exact Option.some.inj found ▸ accepted
    · exact sound.approved found above
  case descends =>
    intro hash some
    rw [lookup_blocks_add] at some
    split at some
    · rename_i same
      obtain ⟨before, descends, inside⟩ := sound.descends onTop
      refine ⟨before ++ [block.hash], same ▸ contained.descends descends, ?_⟩
      intro other member
      rcases List.mem_append.mp member with member | member
      · exact grown other (inside other member)
      · rw [lookup_blocks_add, if_pos (List.mem_singleton.mp member)]
        rfl
    · obtain ⟨before, descends, inside⟩ := sound.descends some
      exact ⟨before, descends, fun other member => grown other (inside other member)⟩
  case informed =>
    intro hash some
    rw [lookup_blocks_add] at some
    rw [lookup_infos_add]
    split at some
    · rename_i same
      rw [if_pos same]
      rfl
    · rename_i different
      rw [if_neg different]
      exact sound.informed some
  case exactly =>
    intro hash info found
    rw [lookup_infos_add] at found
    split at found
    · rename_i same
      cases found
      refine ⟨?_, path, same ▸ leads, tdEq⟩
      rw [lookup_blocks_add, if_pos same]
      rfl
    · obtain ⟨some, exactly⟩ := sound.exactly found
      exact ⟨grown hash some, exactly⟩
  case link => exact sound.link
  case processed => exact sound.processed

theorem parent_stored (sound : Sound tree m) {b : ChainBlock}
    (found : AList.lookup b.hash m.blocks = some b) (above : b.hash ≠ tree.genesis.hash) :
    tree.Contains b ∧ (AList.lookup b.prevHash m.blocks).isSome := by
  have contained : tree.Contains b := by
    rcases sound.stored found with rfl | contained
    · exact absurd rfl above
    · exact contained
  refine ⟨contained, ?_⟩
  obtain ⟨path, descends, inside⟩ := sound.descends (Option.isSome_of_eq_some found)
  obtain ⟨before, rfl, leads⟩ := contained.descends_parent descends
  by_cases isGenesis : b.prevHash = tree.genesis.hash
  · rw [isGenesis, sound.origin]
    rfl
  · exact inside _ (List.mem_append_left _ (leads.mem_of_ne_root isGenesis))

/-- `insertChain` on exact links on top of a block of the database. -/
theorem lengthen (sound : Sound tree m) {chain : List LinkRef}
    (below : ∀ l ∈ chain, l < m.nextLink) (linked : HashLinked (m.blocksOf chain))
    (first : ∀ l ∈ chain.head?, (AList.lookup (m.links l).block.prevHash m.blocks).isSome)
    (exactly : ∀ l ∈ chain, Exact tree m l) (current : chain = [] → Current tree m)
    (lengthened : m.lengthen chain = some after) : Sound tree after ∧ Current tree after := by
  induction chain generalizing m with
  | nil => exact Option.some.inj lengthened ▸ ⟨sound, current rfl⟩
  | cons l rest induction =>
      obtain ⟨td, tdEq, lengthened⟩ := Option.bind_eq_some_iff.mp lengthened
      obtain ⟨path, leads, linkTd⟩ := exactly l List.mem_cons_self
      have totalEq : td = tree.total path := Option.some.inj (tdEq.symm.trans linkTd)
      have lBelow := below l List.mem_cons_self
      have accepted := (sound.processed lBelow (Option.isSome_of_eq_some tdEq)).1
      have added := sound.add (sound.link lBelow) accepted (first l rfl) leads totalEq
      obtain ⟨follows, linked⟩ := List.isChain_cons.mp linked
      refine induction added (fun other member => below other (List.mem_cons_of_mem _ member))
        linked ?_ (fun other member => exactly other (List.mem_cons_of_mem _ member))
        (fun _ => ⟨path, leads, totalEq⟩) lengthened
      intro next nextEq
      have nextFollows : (m.links next).block.prevHash = (m.links l).block.hash := by
        refine follows _ ?_
        rw [List.head?_map, nextEq]
        rfl
      rw [lookup_blocks_add]
      exact Option.isSome_of_eq_some (if_pos nextFollows)

end Sound

end ChainManager

end Thelonious
