import Thelonious.Chain.Reorganisation
import Thelonious.Util.Big

/-!
# Restarts

The head of the chain is on disk in four records, which `insertChain` writes one after the
other for each block: the total difficulty under `LTD`, the `Info` record, the block, and
`LastBlock`.  `setLastBlock` reads the first and the last of them.  The process may stop
between any two of the writes.
-/

namespace Thelonious

/-- The records of the chain manager, with the bytes under `LTD`. -/
structure Disk where
  lastBlock : Option ChainBlock
  ltd : Bytes
  blocks : AssocMap Bytes ChainBlock
  infos : AssocMap Bytes BlockInfo

inductive Put
  | ltd (data : Bytes)
  | info (hash : Bytes) (info : BlockInfo)
  | block (hash : Bytes) (block : ChainBlock)
  | lastBlock (block : ChainBlock)

/-- What a round of the loop of `insertChain` writes: the block, its total difficulty, and the
number that `writeBlockInfo` has counted. -/
structure Write where
  block : ChainBlock
  td : Nat
  number : UInt64

/-- The head that `setLastBlock` sets. -/
structure RestartedHead where
  currentBlock : ChainBlock
  currentBlockHash : Bytes
  currentBlockNumber : UInt64
  td : Nat

/-- `SetTotalDifficulty`, and the writes of `add`. -/
def Write.puts (write : Write) : List Put :=
  [.ltd (bigBytes write.td),
    .info write.block.hash ⟨write.number, write.block.hash, write.block.prevHash, write.td⟩,
    .block write.block.hash write.block, .lastBlock write.block]

namespace Disk

def put (disk : Disk) : Put → Disk
  | .ltd data => { disk with ltd := data }
  | .info hash info => { disk with infos := disk.infos.insert hash info }
  | .block hash block => { disk with blocks := disk.blocks.insert hash block }
  | .lastBlock block => { disk with lastBlock := some block }

def putAll (disk : Disk) (puts : List Put) : Disk := puts.foldl put disk

/-- `LastKnownTD` -/
def lastKnownTD (disk : Disk) : Bytes := if disk.ltd.length = 0 then [0] else disk.ltd

/-- The writes of `Reset`, before any total difficulty is known. -/
def resetPuts (genesis : ChainBlock) : List Put :=
  let number := if genesis.number ≠ 0 then 1 else 0
  [.info genesis.hash ⟨number, genesis.hash, genesis.prevHash, 0⟩,
    .block genesis.hash genesis, .lastBlock genesis]

/-- The head of the chain manager with its total difficulty from the disk. -/
def head (disk : Disk) (block : ChainBlock) : RestartedHead :=
  ⟨block, block.hash, .ofNat block.number, (bigD disk.lastKnownTD).toNat⟩

/-- `setLastBlock`, once genesis and the chain id are on disk. -/
def setLastBlock (genesis : ChainBlock) (disk : Disk) : Disk × RestartedHead :=
  match disk.lastBlock with
  | some block => (disk, disk.head block)
  | none =>
      let disk := disk.putAll (resetPuts genesis)
      (disk, disk.head genesis)

/-- The disk after the first start. -/
def boot (genesis : ChainBlock) : Disk := (setLastBlock genesis ⟨none, [], ∅, ∅⟩).1

/-- A restart has the total difficulty that is recorded for its current block. -/
def Consistent (genesis : ChainBlock) (disk : Disk) : Prop :=
  let restarted := setLastBlock genesis disk
  (AList.lookup restarted.2.currentBlock.hash restarted.1.infos).map BlockInfo.td =
    some restarted.2.td

end Disk

namespace ChainManager

variable {σ : Type}

/-- The writes of `insertChain`, up to a panic. -/
def lengthenWrites (m : ChainManager σ) : List LinkRef → List Write
  | [] => []
  | l :: rest =>
      match (m.links l).td with
      | none => []
      | some td =>
          let block := (m.links l).block
          let added := (m.setTotalDifficulty td).add block
          ⟨block, td, added.currentBlockNumber⟩ :: lengthenWrites added rest

section Processing

variable (process : ChainManager σ → ChainBlock → ChainBlock → Bool × σ)

/-- The writes of `InsertChain`. -/
def insertChainWritesWith (reOrgWrites : ChainManager σ → List LinkRef → List Write)
    (m : ChainManager σ) (chain : List LinkRef) : List Write :=
  let writes : Option (List Write) := do
    let front ← chain.head?
    let back ← chain.getLast?
    let branchParent ← m.getBlock (m.links front).block.prevHash
    if m.currentBlock.hash = branchParent.hash then return m.lengthenWrites chain
    else do
      let td ← (m.links back).td
      if m.td < td then return reOrgWrites m chain else return []
  writes.getD []

/-- The writes of `reOrg`: those of the `InsertChain` that it calls. -/
def reOrgWrites (m : ChainManager σ) (chain : List LinkRef) : List Write :=
  let writes : Option (List Write) := do
    let (reverted, bchain, _, _) ← m.revert chain
    let (tested, bchain, verdict) ← reverted.testChain process bchain
    if verdict = .accepted then return tested.insertChainWritesWith (fun _ _ => []) bchain
    else return []
  writes.getD []

/-- The writes of a round. -/
def presentWrites (m : ChainManager σ) (blocks : List ChainBlock) : List Write :=
  let (m, chain) := m.newChain blocks
  let writes : Option (List Write) := do
    let (m, chain, verdict) ← m.testChain process chain
    if verdict = .failed then return []
    else return m.insertChainWritesWith (reOrgWrites process) chain
  writes.getD []

/-- The writes of a run of rounds. -/
def roundsWrites (m : ChainManager σ) : List (List ChainBlock) → List Write
  | [] => []
  | blocks :: later =>
      m.presentWrites process blocks ++
        match m.present process blocks with
        | none => []
        | some m => roundsWrites m later

end Processing

end ChainManager

/-! ### A disk between the blocks -/

namespace Disk

variable {genesis block : ChainBlock} {disk : Disk} {td : Nat}

/-- Everything about the head is on disk. -/
structure Settled (disk : Disk) (block : ChainBlock) (td : Nat) : Prop where
  lastBlock : disk.lastBlock = some block
  ltd : disk.ltd = bigBytes td
  info : (AList.lookup block.hash disk.infos).map BlockInfo.td = some td

theorem td_lastKnownTD (known : disk.ltd = bigBytes td) : (bigD disk.lastKnownTD).toNat = td := by
  unfold lastKnownTD bigD
  split
  case isTrue empty =>
    rw [known, bigBytes, List.length_eq_zero_iff, BigEndian.digits_eq_nil_iff] at empty
    simpa [BigEndian.value] using empty.symm
  case isFalse => rw [known, value_bigBytes, Int.toNat_natCast, Int.natAbs_natCast]

theorem consistent_iff (lastBlock : disk.lastBlock = some block) (ltd : disk.ltd = bigBytes td) :
    disk.Consistent genesis ↔ (AList.lookup block.hash disk.infos).map BlockInfo.td = some td := by
  have restarted : setLastBlock genesis disk = (disk, disk.head block) := by
    rw [setLastBlock, lastBlock]
  have known : (disk.head block).td = td := td_lastKnownTD ltd
  rw [Consistent, restarted, known]
  rfl

theorem Settled.consistent (settled : disk.Settled block td) : disk.Consistent genesis :=
  (consistent_iff settled.lastBlock settled.ltd).mpr settled.info

theorem map_td_insert (infos : AssocMap Bytes BlockInfo) (hash other : Bytes) (info : BlockInfo) :
    (AList.lookup other (infos.insert hash info)).map BlockInfo.td =
      if other = hash then some info.td else (AList.lookup other infos).map BlockInfo.td := by
  split
  case isTrue same =>
    rw [same, AList.lookup_insert]
    rfl
  case isFalse different => rw [AList.lookup_insert_ne different]

theorem settled_boot (genesis : ChainBlock) : (boot genesis).Settled genesis 0 where
  lastBlock := rfl
  ltd := rfl
  info := (map_td_insert ..).trans (if_pos rfl)

theorem putAll_append (disk : Disk) (first second : List Put) :
    disk.putAll (first ++ second) = (disk.putAll first).putAll second :=
  List.foldl_append

/-- The four writes of a block settle it, whatever was there before. -/
theorem settled_puts (disk : Disk) (write : Write) :
    (disk.putAll write.puts).Settled write.block write.td where
  lastBlock := rfl
  ltd := rfl
  info := (map_td_insert ..).trans (if_pos rfl)

/-- The head after some blocks have been written. -/
def headAfter (genesis : ChainBlock) (writes : List Write) : ChainBlock × Nat :=
  match writes.getLast? with
  | none => (genesis, 0)
  | some write => (write.block, write.td)

theorem settled_putAll (genesis : ChainBlock) (writes : List Write) :
    ((boot genesis).putAll (writes.flatMap Write.puts)).Settled (headAfter genesis writes).1
      (headAfter genesis writes).2 := by
  cases writes using List.reverseRecOn with
  | nil => exact settled_boot genesis
  | append_singleton writes last =>
      rw [List.flatMap_append, putAll_append, List.flatMap_singleton, headAfter,
        List.getLast?_concat]
      exact settled_puts _ last

/-! ### A stop between two writes -/

/-- The first `k` writes of the blocks: whole blocks, and a part of the next. -/
theorem take_puts (writes : List Write) (k : Nat) :
    (writes.flatMap Write.puts).take k = (writes.take (k / 4)).flatMap Write.puts ++
      ((writes[k / 4]?).map fun write => write.puts.take (k % 4)).getD [] := by
  induction writes generalizing k with
  | nil => simp
  | cons write writes induction =>
      have length : write.puts.length = 4 := rfl
      by_cases small : k < 4
      · have quotient : k / 4 = 0 := Nat.div_eq_of_lt small
        rw [quotient, Nat.mod_eq_of_lt small, List.flatMap_cons,
          List.take_append_of_le_length (by omega)]
        rfl
      · obtain ⟨rest, rfl⟩ := Nat.exists_eq_add_of_le' (Nat.le_of_not_lt small)
        rw [List.flatMap_cons, Nat.add_div_right _ (by decide), Nat.add_mod_right,
          List.take_succ_cons, List.flatMap_cons, List.getElem?_cons_succ, List.append_assoc,
          ← induction, ← length, List.take_append, List.take_of_length_le (by omega),
          Nat.add_sub_cancel]

/-- A stop after some of the writes of a block: the head is the old one, with the new total
difficulty. -/
theorem consistent_torn_iff (settled : disk.Settled block td) (write : Write) {count : Nat}
    (begun : 0 < count) (unfinished : count < 4) :
    (disk.putAll (write.puts.take count)).Consistent genesis ↔
      write.td = td ∨ 2 ≤ count ∧ write.block.hash = block.hash := by
  have lastBlock : (disk.putAll (write.puts.take count)).lastBlock = some block := by
    interval_cases count <;> exact settled.lastBlock
  have ltd : (disk.putAll (write.puts.take count)).ltd = bigBytes write.td := by
    interval_cases count <;> rfl
  have infos : (disk.putAll (write.puts.take count)).infos =
      if 2 ≤ count then disk.infos.insert write.block.hash
        ⟨write.number, write.block.hash, write.block.prevHash, write.td⟩ else disk.infos := by
    interval_cases count <;> rfl
  rw [consistent_iff lastBlock ltd, infos]
  split
  case isTrue recorded =>
    rw [map_td_insert, settled.info]
    split
    case isTrue same => simp [recorded, same]
    case isFalse different => simp [Ne.symm different, eq_comm]
  case isFalse unrecorded =>
    rw [settled.info]
    simp [unrecorded, eq_comm]

/-- After `k` writes of the blocks a restart is consistent exactly if the stop is between two
blocks, or the next block leaves the total difficulty of the head as it is, or it is the head
once more and its `Info` record is written. -/
theorem consistent_take_iff (genesis : ChainBlock) (writes : List Write) (k : Nat) :
    ((boot genesis).putAll ((writes.flatMap Write.puts).take k)).Consistent genesis ↔
      ∀ write, writes[k / 4]? = some write → k % 4 ≠ 0 →
        write.td = (headAfter genesis (writes.take (k / 4))).2 ∨
          2 ≤ k % 4 ∧ write.block.hash = (headAfter genesis (writes.take (k / 4))).1.hash := by
  have settled := settled_putAll genesis (writes.take (k / 4))
  rw [take_puts, putAll_append]
  cases next : writes[k / 4]? with
  | none => simpa [putAll] using settled.consistent
  | some write =>
      by_cases between : k % 4 = 0
      · simpa [between, putAll] using settled.consistent
      · rw [Option.map_some, Option.getD_some,
          consistent_torn_iff settled write (Nat.pos_of_ne_zero between)
            (Nat.mod_lt _ (by decide))]
        simp [between]

end Disk

/-! ### The disk of a run -/

namespace ChainManager

variable {σ : Type} {m after : ChainManager σ} {disk : Disk}
variable {process : ChainManager σ → ChainBlock → ChainBlock → Bool × σ}

/-- The disk has the records of the manager. -/
structure Stored (m : ChainManager σ) (disk : Disk) : Prop where
  blocks : disk.blocks = m.blocks
  infos : disk.infos = m.infos

/-- The disk has the head of the manager as well. -/
structure Mirrors (m : ChainManager σ) (disk : Disk) : Prop extends Stored m disk where
  lastBlock : disk.lastBlock = some m.currentBlock
  ltd : disk.ltd = bigBytes m.td

theorem Mirrors.of_canonical (mirrors : Mirrors m disk) (same : after.canonical = m.canonical) :
    Mirrors after disk where
  blocks := mirrors.blocks.trans (congrArg CanonicalPart.blocks same).symm
  infos := mirrors.infos.trans (congrArg CanonicalPart.infos same).symm
  lastBlock := mirrors.lastBlock.trans
    (congrArg (fun part => some part.currentBlock) same).symm
  ltd := mirrors.ltd.trans (congrArg (fun part : CanonicalPart => bigBytes part.td) same).symm

theorem mirrors_boot (genesis : ChainBlock) (processor : σ) :
    Mirrors (boot genesis processor) (Disk.boot genesis) :=
  ⟨⟨rfl, rfl⟩, rfl, rfl⟩

theorem Stored.add (stored : Stored m disk) (td : Nat) (block : ChainBlock) :
    Mirrors ((m.setTotalDifficulty td).add block) (disk.putAll
      (Write.puts ⟨block, td, ((m.setTotalDifficulty td).add block).currentBlockNumber⟩)) where
  blocks := by
    change disk.blocks.insert block.hash block = m.blocks.insert block.hash block
    rw [stored.blocks]
  infos := by
    change disk.infos.insert block.hash _ = m.infos.insert block.hash _
    rw [stored.infos]
    rfl
  lastBlock := rfl
  ltd := rfl

variable {chain : List LinkRef}

theorem Stored.lengthen (stored : Stored m disk) (nonempty : chain ≠ [])
    (lengthened : m.lengthen chain = some after) :
    Mirrors after (disk.putAll ((m.lengthenWrites chain).flatMap Write.puts)) := by
  induction chain generalizing m disk with
  | nil => exact absurd rfl nonempty
  | cons l rest induction =>
      obtain ⟨td, tdEq, lengthened⟩ := Option.bind_eq_some_iff.mp lengthened
      rw [lengthenWrites, tdEq, List.flatMap_cons, Disk.putAll_append]
      have added := stored.add td (m.links l).block
      cases rest with
      | nil =>
          cases lengthened
          exact added
      | cons next rest => exact induction added.toStored (List.cons_ne_nil _ _) lengthened

theorem OnHead.insertChainWritesWith {front back : LinkRef} {branchParent : ChainBlock}
    (onHead : OnHead m chain front back branchParent)
    (reOrgWrites : ChainManager σ → List LinkRef → List Write) :
    m.insertChainWritesWith reOrgWrites chain = m.lengthenWrites chain := by
  simp [ChainManager.insertChainWritesWith, onHead.head_eq, onHead.last_eq, onHead.parent_eq,
    onHead.current_eq]

/-- The chain that `reOrg` inserts starts at the block its head has been set to. -/
theorem Reverts.onHead {bchain path left : List LinkRef}
    {reverted allocated tested : ChainManager σ} {oldHead ancestor : ChainBlock}
    {ancestorHash : Bytes} {verdict : Verdict}
    (reverts : Reverts m chain reverted bchain oldHead ancestorHash path ancestor allocated)
    (testedEq : reverted.testChain process bchain = some (tested, left, verdict)) :
    ∃ front back, OnHead tested left front back ancestor := by
  have nodup := reverts.allocates.nodup
  have touches := (touches_testChain testedEq nodup).1
  obtain ⟨front, frontEq, prevEq, extending⟩ := reverts.front
  obtain ⟨rfl, -⟩ := testChain_of_not_fork testedEq frontEq nodup extending
  obtain ⟨back, backEq⟩ := exists_getLast?_of_head? frontEq
  refine ⟨front, back, frontEq, backEq, ?_, ?_⟩
  · have blocksEq : tested.blocks = m.blocks := by
      rw [touches.blocks_eq, reverts.reverted_eq]
      exact reverts.allocates.blocks_kept
    rw [touches.block_eq, prevEq, getBlock, getBlockCanonical, blocksEq]
    rw [show AList.lookup ancestorHash m.blocks = some ancestor from reverts.ancestor_eq]
  · rw [touches.currentBlock_eq, reverts.reverted_eq]
    rfl

theorem Mirrors.reOrg (mirrors : Mirrors m disk) (recorded : Recorded m)
    (reorganised : m.reOrg process chain = some after) :
    Mirrors after (disk.putAll ((m.reOrgWrites process chain).flatMap Write.puts)) := by
  obtain ⟨reverted, bchain, oldHead, ancestorHash, tested, left, verdict, revertEq, testedEq,
    outcome⟩ := reOrg_cases reorganised
  obtain ⟨path, ancestor, allocated, reverts⟩ := reverts_of_revert revertEq
  have touches := (touches_testChain testedEq reverts.allocates.nodup).1
  have stored : Stored tested disk := by
    constructor
    · rw [mirrors.blocks, touches.blocks_eq, reverts.reverted_eq]
      exact reverts.allocates.blocks_kept.symm
    · rw [mirrors.infos, touches.infos_eq, reverts.reverted_eq]
      exact reverts.allocates.infos_kept.symm
  rcases outcome with ⟨rfl, inserted, insertedEq, demoted⟩ | ⟨rejected, rfl⟩
  · obtain ⟨front, back, onHead⟩ := reverts.onHead testedEq
    have writes : m.reOrgWrites process chain = tested.lengthenWrites left := by
      simp [ChainManager.reOrgWrites, revertEq, testedEq, onHead.insertChainWritesWith]
    rw [onHead.insertChainWith] at insertedEq
    obtain ⟨blocks, moved, old, oldLeft, verdict, -, allocates, retested⟩ := demote_cases demoted
    have retouches := (touches_testChain retested allocates.nodup).1
    rw [writes]
    apply Mirrors.of_canonical _ (retouches.canonical_eq.trans allocates.canonical_eq)
    apply stored.lengthen _ insertedEq
    rintro rfl
    exact absurd onHead.head_eq (by simp)
  · have writes : m.reOrgWrites process chain = [] := by
      simp [ChainManager.reOrgWrites, revertEq, testedEq, rejected]
    rw [writes]
    constructor
    · exact ⟨stored.blocks, stored.infos⟩
    · have found := recorded.current
      rw [← recorded.head] at found
      have same : oldHead = m.currentBlock :=
        Option.some.inj (reverts.oldHead_eq.symm.trans found)
      rw [same]
      exact mirrors.lastBlock
    · have tdEq : tested.td = m.td := by
        rw [touches.td_eq, reverts.reverted_eq]
        exact reverts.allocates.td_kept
      change disk.ltd = bigBytes tested.td
      rw [tdEq]
      exact mirrors.ltd

theorem Mirrors.insertChain (mirrors : Mirrors m disk) (recorded : Recorded m)
    (inserted : m.insertChain process chain = some after) :
    Mirrors after
      (disk.putAll ((m.insertChainWritesWith (reOrgWrites process) chain).flatMap Write.puts)) := by
  obtain ⟨front, back, branchParent, frontEq, backEq, parentEq, outcome⟩ :=
    insertChainWith_cases inserted
  rcases outcome with ⟨same, lengthened⟩ | ⟨different, td, tdEq, outcome⟩
  · have onHead : OnHead m chain front back branchParent := ⟨frontEq, backEq, parentEq, same⟩
    rw [onHead.insertChainWritesWith]
    apply mirrors.toStored.lengthen _ lengthened
    rintro rfl
    exact absurd frontEq (by simp)
  · rcases outcome with ⟨heavier, reorganised⟩ | ⟨lighter, rfl⟩
    · have writes : m.insertChainWritesWith (reOrgWrites process) chain =
          m.reOrgWrites process chain := by
        simp [insertChainWritesWith, frontEq, backEq, parentEq, different, tdEq, heavier]
      rw [writes]
      exact mirrors.reOrg recorded reorganised
    · have writes : after.insertChainWritesWith (reOrgWrites process) chain = [] := by
        simp [insertChainWritesWith, frontEq, backEq, parentEq, different, tdEq,
          Nat.not_lt.mpr lighter]
      rw [writes]
      exact mirrors

theorem Mirrors.present (mirrors : Mirrors m disk) (recorded : Recorded m)
    {blocks : List ChainBlock} (presented : m.present process blocks = some after) :
    Mirrors after (disk.putAll ((m.presentWrites process blocks).flatMap Write.puts)) := by
  have allocates := allocates_newChain m blocks
  obtain ⟨⟨tested, left, verdict⟩, testedEq, presented⟩ := Option.bind_eq_some_iff.mp presented
  have touches := (touches_testChain testedEq allocates.nodup).1
  have testedMirrors : Mirrors tested disk :=
    mirrors.of_canonical (touches.canonical_eq.trans allocates.canonical_eq)
  have testedRecorded : Recorded tested :=
    (recorded.allocates allocates).testChain testedEq allocates.nodup
      fun l member => (allocates.fresh.mp member).2
  dsimp only at presented
  split at presented
  case isTrue failed =>
    cases presented
    have writes : m.presentWrites process blocks = [] := by
      simp [presentWrites, testedEq, failed]
    rw [writes]
    exact testedMirrors
  case isFalse passed =>
    have writes : m.presentWrites process blocks =
        tested.insertChainWritesWith (reOrgWrites process) left := by
      simp [presentWrites, testedEq, passed]
    rw [writes]
    exact testedMirrors.insertChain testedRecorded presented

/-- After whole rounds the writes have put the manager on disk, head and records. -/
theorem Mirrors.rounds (mirrors : Mirrors m disk)
    (reachable : Reachable process (fun _ _ => false) m) {chains : List (List ChainBlock)}
    (run : m.rounds process chains = some after) :
    Mirrors after (disk.putAll ((m.roundsWrites process chains).flatMap Write.puts)) := by
  induction chains generalizing m disk with
  | nil =>
      cases run
      exact mirrors
  | cons blocks later induction =>
      obtain ⟨middle, presented, run⟩ := Option.bind_eq_some_iff.mp run
      rw [roundsWrites, presented, List.flatMap_append, Disk.putAll_append]
      exact induction (mirrors.present reachable.recorded presented)
        (reachable.present presented) run

/-- What a run leaves on disk, wherever it stops.  A restart between two of its writes is
consistent exactly if the stop is between two blocks, or the next block leaves the total
difficulty of the head as it is, or it is the head once more and its `Info` record is written.
After the last write the disk has the records and the head of the manager. -/
theorem restart_consistent_iff
    (process : ChainManager σ → ChainBlock → ChainBlock → Bool × σ) (genesis : ChainBlock)
    (processor : σ) (chains : List (List ChainBlock)) :
    let writes := (boot genesis processor).roundsWrites process chains
    let puts := writes.flatMap Write.puts
    (∀ k, ((Disk.boot genesis).putAll (puts.take k)).Consistent genesis ↔
      ∀ write, writes[k / 4]? = some write → k % 4 ≠ 0 →
        write.td = (Disk.headAfter genesis (writes.take (k / 4))).2 ∨
          2 ≤ k % 4 ∧
            write.block.hash = (Disk.headAfter genesis (writes.take (k / 4))).1.hash) ∧
      ∀ after, (boot genesis processor).rounds process chains = some after →
        Mirrors after ((Disk.boot genesis).putAll puts) := by
  constructor
  · intro k
    exact Disk.consistent_take_iff genesis _ k
  · intro after run
    exact (mirrors_boot genesis processor).rounds (.boot genesis processor) run

/-- The process stops after the first write for the trunk: the head is genesis still, with the
total difficulty of the trunk. -/
theorem restart_inconsistent :
    ¬ ((Disk.boot origin).putAll ((((boot origin ()).roundsWrites acceptAll [[trunk]]).flatMap
      Write.puts).take 1)).Consistent origin := by
  unfold Disk.Consistent
  decide +kernel

end ChainManager

end Thelonious
