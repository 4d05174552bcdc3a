import Thelonious.Chain.BlockPool
import Thelonious.Lib.AssocMap

/-!
# The hashes of the block pool

The pool keeps what it asks its peers for twice: `hashPool` is the order in which hashes are
asked for, and `pool` has an entry for each of them.  All operations hold the mutex.
`DistributeHashes` walks `hashPool` by index and deletes from it on the way, so that the hash
behind a deleted one is passed over; the two structures stay in step all the same.
-/

namespace Thelonious

/-- The entries of the pool, `block` in the source; `sender` is its `from`. -/
structure PoolItem (π : Type) where
  sender : Option π
  peer : Option π
  block : Option Block
  reqAt : Int
  requested : Int

/-- The map has pointers, which may be nil. -/
structure BlockPool (π : Type) where
  hashPool : List Bytes
  pool : AssocMap Bytes (Option (PoolItem π))
  blocksProcessed : Nat
  downloadStartedAt : Option Int

/-- What `Add` reads of the chain manager and of the peers, and how many bytes the slice
`b.PrevHash` has room for. -/
structure AddView where
  waitingForCheckpoint : Bool
  latestCheckPointNumber : Nat
  hasBlock : Bytes → Bool
  fetchingHashes : Bool
  room : Nat

/-- What `DistributeHashes` reads of the peers and of the clock.  The list of the peers is
read again in every turn of the loop, and is not protected. -/
structure DistributeView (π : Type) where
  peerLen : Nat
  peers : Nat → List π
  since : Nat → Int
  now : Nat → Int
  finished : Int

def deleteFromByteSlice : List Bytes → Bytes → List Bytes
  | [], _ => []
  | h :: s, hash => if h = hash then s else h :: deleteFromByteSlice s hash

theorem deleteFromByteSlice_eq_erase (s : List Bytes) (hash : Bytes) :
    deleteFromByteSlice s hash = s.erase hash := by
  induction s with
  | nil => rfl
  | cons h s induction =>
      rw [deleteFromByteSlice, List.erase_cons, induction]
      by_cases same : h = hash
      · simp [same]
      · simp [same]

namespace BlockPool

variable {π : Type}

/-- `NewBlockPool` -/
def new : BlockPool π := ⟨[], ∅, 0, none⟩

/-- `self.pool[string(hash)]`, which is nil when there is no entry -/
def item (self : BlockPool π) (hash : Bytes) : Option (PoolItem π) := (self.pool.lookup hash).join

def reset (self : BlockPool π) : BlockPool π := { self with pool := ∅, hashPool := [] }

def setItem (self : BlockPool π) (hash : Bytes) (item : PoolItem π) : BlockPool π :=
  { self with pool := self.pool.insert hash (some item) }

def addHash (self : BlockPool π) (hash : Bytes) (peer : Option π) (now : Int) : BlockPool π :=
  match self.item hash with
  | none => { self.setItem hash ⟨peer, none, none, now, 0⟩ with hashPool := hash :: self.hashPool }
  | some _ => self

/-- `Add`.  A checkpoint block goes to the chain manager and not to the pool. -/
def add (sha3Bin : Bytes → Bytes) (self : BlockPool π) (b : Block) (peer : Option π) (now : Int)
    (view : AddView) : BlockPool π :=
  let hash := b.hash sha3Bin
  if view.waitingForCheckpoint then self
  else if uint64 b.header.number < view.latestCheckPointNumber then self
  else if view.hasBlock hash then self
  else
    match self.item hash with
    | none =>
        let added := { self.setItem hash ⟨peer, peer, some b, now, 0⟩ with
          hashPool := self.hashPool ++ [hash] }
        -- the log line slices `b.PrevHash[0:4]`, and a panic leaves what has been written
        if !view.hasBlock b.header.prevHash && (added.item b.header.prevHash).isNone &&
            !view.fetchingHashes && view.room < 4 then added
        else { added with blocksProcessed := added.blocksProcessed + 1 }
    | some item =>
        { self.setItem hash { item with block := some b } with
          blocksProcessed := self.blocksProcessed + 1 }

def remove (self : BlockPool π) (hash : Bytes) : BlockPool π :=
  { self with
    hashPool := deleteFromByteSlice self.hashPool hash
    pool := self.pool.erase hash }

section Distribution

variable [DecidableEq π] (view : DistributeView π)

/-- `dist` -/
abbrev Distribution (π : Type) := AssocMap π (List Bytes)

/-- The last part of the loop's body; without a peer nothing is asked for. -/
def request (i : Nat) (hash : Bytes) (item : PoolItem π) (self : BlockPool π)
    (dist : Distribution π) : Option π → BlockPool π × Distribution π
  | none => (self, dist)
  | some peer =>
      (self.setItem hash { item with
          reqAt := view.now i, peer := some peer, requested := item.requested + 1 },
        dist.insert peer ((dist.lookup peer).getD [] ++ [hash]))

/-- The body of the loop at the hash `self.hashPool[i]`. -/
def visit (i : Nat) (hash : Bytes) (self : BlockPool π) (dist : Distribution π) :
    BlockPool π × Distribution π :=
  match self.item hash with
  | none => (self, dist)
  | some item =>
      if item.block.isSome then (self, dist)
      else
        let lastFetchFailed := decide (view.since i - item.reqAt > 5 * 10 ^ 9)
        if lastFetchFailed && decide (5 < item.requested) && item.peer.isSome then
          if item.requested < 100 then request view i hash item self dist item.sender
          else (self.remove hash, dist)
        else if lastFetchFailed || item.peer.isNone then
          -- the loop is not entered without peers
          request view i hash item self dist ((view.peers i).find? fun peer =>
            ((dist.lookup peer).getD []).length < 256 * view.peerLen / view.peerLen)
        else (self, dist)

theorem visit_cases (i : Nat) (hash : Bytes) (self : BlockPool π) (dist : Distribution π) :
    (visit view i hash self dist).1 = self ∨ (visit view i hash self dist).1 = self.remove hash ∨
      ∃ item later, self.item hash = some item ∧
        (visit view i hash self dist).1 = self.setItem hash later := by
  unfold visit
  cases found : self.item hash with
  | none => exact .inl rfl
  | some item =>
      have requested : ∀ peer, (request view i hash item self dist peer).1 = self ∨
          ∃ later, (request view i hash item self dist peer).1 = self.setItem hash later := by
        intro peer
        cases peer with
        | none => exact .inl rfl
        | some peer => exact .inr ⟨_, rfl⟩
      have asks : ∀ peer, (request view i hash item self dist peer).1 = self ∨
          (request view i hash item self dist peer).1 = self.remove hash ∨
          ∃ known later, some item = some known ∧
            (request view i hash item self dist peer).1 = self.setItem hash later := by
        intro peer
        apply (requested peer).imp_right
        rintro ⟨later, laterEq⟩
        exact .inr ⟨item, later, rfl, laterEq⟩
      dsimp only
      split_ifs
      · exact .inl rfl
      · exact asks _
      · exact .inr (.inl rfl)
      · exact asks _
      · exact .inl rfl

theorem length_visit_le (i : Nat) (hash : Bytes) (self : BlockPool π) (dist : Distribution π) :
    (visit view i hash self dist).1.hashPool.length ≤ self.hashPool.length := by
  rcases visit_cases view i hash self dist with same | removed | ⟨item, later, -, written⟩
  · rw [same]
  · rw [removed, remove, deleteFromByteSlice_eq_erase]
    exact List.length_erase_le
  · rw [written]
    rfl

/-- The loop of `DistributeHashes`; `j` stays zero.  The length of the slice is read in every
turn, so that the index is always within it. -/
def distributeFrom (num i : Nat) (self : BlockPool π) (dist : Distribution π) :
    BlockPool π × Distribution π :=
  if inside : i < self.hashPool.length ∧ 0 < num then
    let next := visit view i (self.hashPool.get ⟨i, inside.1⟩) self dist
    distributeFrom num (i + 1) next.1 next.2
  else (self, dist)
termination_by self.hashPool.length - i
decreasing_by
  have shrinks := length_visit_le view i (self.hashPool.get ⟨i, inside.1⟩) self dist
  omega

/-- `DistributeHashes`, and what is asked of each peer. -/
def distributeHashes (self : BlockPool π) : BlockPool π × Distribution π :=
  let num := min (256 * view.peerLen) self.pool.entries.length
  let done := distributeFrom view num 0 self ∅
  if done.2.entries.length > 0 then
    ({ done.1 with downloadStartedAt := some view.finished }, done.2)
  else done

end Distribution

/-- The two structures have the same hashes. -/
structure InStep (blockPool : BlockPool π) : Prop where
  nodup : blockPool.hashPool.Nodup
  keys : ∀ hash, hash ∈ blockPool.hashPool ↔ hash ∈ blockPool.pool
  entries : ∀ hash entry, blockPool.pool.lookup hash = some entry → entry ≠ none

namespace InStep

variable {self : BlockPool π} {hash : Bytes} {item : PoolItem π}

theorem mem_of_item (inStep : self.InStep) (found : self.item hash = some item) :
    hash ∈ self.hashPool := by
  rw [inStep.keys, ← AList.lookup_isSome]
  have entryFound : self.pool.lookup hash = some (some item) := Option.join_eq_some_iff.mp found
  rw [entryFound]
  rfl

theorem notMem_of_item (inStep : self.InStep) (found : self.item hash = none) :
    hash ∉ self.hashPool := by
  intro member
  obtain ⟨entry, entryFound⟩ := Option.isSome_iff_exists.mp
    (AList.lookup_isSome.mpr ((inStep.keys hash).mp member))
  rw [item, entryFound] at found
  exact inStep.entries hash entry entryFound found

theorem new : (BlockPool.new : BlockPool π).InStep := by
  constructor
  case nodup => exact List.nodup_nil
  case keys => exact fun hash => iff_of_false List.not_mem_nil (AList.notMem_empty hash)
  case entries => exact fun hash entry found => absurd found (by simp [BlockPool.new])

/-- An entry is written, and its hash put into the list if it is not there. -/
theorem setItem (inStep : self.InStep) (later : PoolItem π) {hashes : List Bytes}
    (nodup : hashes.Nodup)
    (members : ∀ other, other ∈ hashes ↔ other = hash ∨ other ∈ self.hashPool) :
    ({ self.setItem hash later with hashPool := hashes } : BlockPool π).InStep := by
  constructor
  case nodup => exact nodup
  case keys =>
    intro other
    rw [members, inStep.keys]
    exact (AList.mem_insert _).symm
  case entries =>
    intro other entry found
    by_cases same : other = hash
    · subst same
      rw [BlockPool.setItem, AList.lookup_insert] at found
      rw [← Option.some.inj found]
      exact Option.some_ne_none later
    · rw [BlockPool.setItem, AList.lookup_insert_ne same] at found
      exact inStep.entries other entry found

theorem setItem_of_mem (inStep : self.InStep) (later : PoolItem π) (member : hash ∈ self.hashPool) :
    (self.setItem hash later).InStep := by
  apply inStep.setItem later inStep.nodup
  intro other
  constructor
  · exact .inr
  · rintro (rfl | known)
    · exact member
    · exact known

theorem addHash (inStep : self.InStep) (hash : Bytes) (peer : Option π) (now : Int) :
    (self.addHash hash peer now).InStep := by
  unfold BlockPool.addHash
  cases found : self.item hash with
  | none =>
      apply inStep.setItem _ (List.nodup_cons.mpr ⟨inStep.notMem_of_item found, inStep.nodup⟩)
      exact fun other => List.mem_cons
  | some item => exact inStep

theorem processed (inStep : self.InStep) (count : Nat) :
    { self with blocksProcessed := count }.InStep :=
  ⟨inStep.nodup, inStep.keys, inStep.entries⟩

theorem add (inStep : self.InStep) (sha3Bin : Bytes → Bytes) (b : Block) (peer : Option π)
    (now : Int) (view : AddView) : (self.add sha3Bin b peer now view).InStep := by
  have added : self.item (b.hash sha3Bin) = none →
      ({ self.setItem (b.hash sha3Bin) ⟨peer, peer, some b, now, 0⟩ with
        hashPool := self.hashPool ++ [b.hash sha3Bin] } : BlockPool π).InStep := by
    intro missing
    apply inStep.setItem
    · apply List.nodup_append_comm.mp
      exact List.nodup_cons.mpr ⟨inStep.notMem_of_item missing, inStep.nodup⟩
    · intro other
      rw [List.mem_append, List.mem_singleton, or_comm]
  simp only [BlockPool.add]
  split
  · exact inStep
  · split
    · exact inStep
    · split
      · exact inStep
      · cases found : self.item (b.hash sha3Bin) with
        | none =>
            dsimp only
            split
            · exact added found
            · exact (added found).processed _
        | some item => exact (inStep.setItem_of_mem _ (inStep.mem_of_item found)).processed _

theorem remove (inStep : self.InStep) (hash : Bytes) : (self.remove hash).InStep := by
  constructor
  case nodup =>
    rw [BlockPool.remove, deleteFromByteSlice_eq_erase]
    exact inStep.nodup.erase hash
  case keys =>
    intro other
    rw [BlockPool.remove, deleteFromByteSlice_eq_erase, inStep.nodup.mem_erase_iff, inStep.keys]
    exact AList.mem_erase.symm
  case entries =>
    intro other entry found
    by_cases same : other = hash
    · rw [same, BlockPool.remove, AList.lookup_erase] at found
      exact absurd found (by simp)
    · rw [BlockPool.remove, AList.lookup_erase_ne same] at found
      exact inStep.entries other entry found

variable [DecidableEq π]

theorem visit (inStep : self.InStep) (view : DistributeView π) (i : Nat) (hash : Bytes)
    (dist : Distribution π) : (BlockPool.visit view i hash self dist).1.InStep := by
  rcases visit_cases view i hash self dist with same | removed | ⟨item, later, found, written⟩
  · rw [same]
    exact inStep
  · rw [removed]
    exact inStep.remove hash
  · rw [written]
    exact inStep.setItem_of_mem later (inStep.mem_of_item found)

theorem distributeFrom (inStep : self.InStep) (view : DistributeView π) (num i : Nat)
    (dist : Distribution π) : (BlockPool.distributeFrom view num i self dist).1.InStep := by
  induction i, self, dist using BlockPool.distributeFrom.induct view num with
  | case1 i self dist inside next induction =>
      rw [BlockPool.distributeFrom, dif_pos inside]
      exact induction (inStep.visit view i _ dist)
  | case2 i self dist outside =>
      rw [BlockPool.distributeFrom, dif_neg outside]
      exact inStep

theorem distributeHashes (inStep : self.InStep) (view : DistributeView π) :
    (self.distributeHashes view).1.InStep := by
  have done := inStep.distributeFrom view (min (256 * view.peerLen) self.pool.entries.length) 0 ∅
  unfold BlockPool.distributeHashes
  dsimp only
  split
  · exact ⟨done.nodup, done.keys, done.entries⟩
  · exact done

end InStep

end BlockPool

/-- The calls of the pool, with what they read from outside. -/
inductive BlockPoolCall (π : Type)
  | addHash (hash : Bytes) (peer : Option π) (now : Int)
  | add (b : Block) (peer : Option π) (now : Int) (view : AddView)
  | remove (hash : Bytes)
  | reset
  | distributeHashes (view : DistributeView π)

namespace BlockPool

variable {π : Type} [DecidableEq π]

def call (sha3Bin : Bytes → Bytes) (self : BlockPool π) : BlockPoolCall π → BlockPool π
  | .addHash hash peer now => self.addHash hash peer now
  | .add b peer now view => self.add sha3Bin b peer now view
  | .remove hash => self.remove hash
  | .reset => self.reset
  | .distributeHashes view => (self.distributeHashes view).1

theorem InStep.call {self : BlockPool π} (inStep : self.InStep) (sha3Bin : Bytes → Bytes)
    (call : BlockPoolCall π) : (self.call sha3Bin call).InStep := by
  cases call with
  | addHash hash peer now => exact inStep.addHash hash peer now
  | add b peer now view => exact inStep.add sha3Bin b peer now view
  | remove hash => exact inStep.remove hash
  | reset =>
      have empty : (BlockPool.new : BlockPool π).InStep := InStep.new
      exact ⟨empty.nodup, empty.keys, empty.entries⟩
  | distributeHashes view => exact inStep.distributeHashes view

/-- After any calls, with any peers, clocks and answers of the chain manager, `hashPool` has no
hash twice, and its hashes are the keys of `pool`, each with an entry that is not nil. -/
theorem hashPool_in_step (sha3Bin : Bytes → Bytes) (calls : List (BlockPoolCall π)) :
    (calls.foldl (call sha3Bin) new).InStep := by
  have run : ∀ self : BlockPool π, self.InStep → (calls.foldl (call sha3Bin) self).InStep := by
    induction calls with
    | nil => exact fun self inStep => inStep
    | cons first calls induction =>
        intro self inStep
        exact induction _ (inStep.call sha3Bin first)
  exact run new InStep.new

end BlockPool

end Thelonious
