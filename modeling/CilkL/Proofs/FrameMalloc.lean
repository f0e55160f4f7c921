/-
Module: CilkL.Proofs.FrameMalloc
Layer: Proofs
Purpose: The accounts of the frame allocator. Every block that was carved from a chunk is in exactly one
  place: in use, on the list of one worker or on a global list, or in the hands of the call that moves it.
  The layout says that the blocks of all places are apart and lie in chunks, the balance says what the
  three counters count; each primitive of the allocator moves one block and keeps both.
Imports: CilkL.Library.MemoryLists, CilkL.Runtime.FrameMalloc, Mathlib.Data.Multiset.Pairwise,
  Mathlib.Algebra.BigOperators.Group.Multiset.Basic, Mathlib.Algebra.Order.BigOperators.Group.Finset,
  Mathlib.Algebra.Order.Group.Multiset, Mathlib.Data.Fintype.Option, Mathlib.Data.Fintype.Prod
Trusted boundary: none
Main exports: Block, Apart, Layout, Balance, Accounts
Open obligations: none
-/
import CilkL.Library.MemoryLists
import CilkL.Runtime.FrameMalloc
import Mathlib.Data.Multiset.Pairwise
import Mathlib.Algebra.BigOperators.Group.Multiset.Basic
import Mathlib.Algebra.Order.BigOperators.Group.Finset
import Mathlib.Algebra.Order.Group.Multiset
import Mathlib.Data.Fintype.Option
import Mathlib.Data.Fintype.Prod

namespace CilkL

/-- A block: its address and its bucket. -/
abbrev Block := Nat × Bucket

/-- Two blocks share no byte. -/
def Apart (x y : Block) : Prop := x.1 + bucketSize x.2 ≤ y.1 ∨ y.1 + bucketSize y.2 ≤ x.1

instance : Std.Symm Apart := ⟨fun _ _ apart => apart.symm⟩

instance (x y : Block) : Decidable (Apart x y) := inferInstanceAs (Decidable (_ ∨ _))

theorem bucketSize_pos (b : Bucket) : 0 < bucketSize b := by
  revert b
  decide

/-- Every block fits in a chunk. -/
theorem bucketSize_le_chunk (b : Bucket) : bucketSize b ≤ frameMallocChunk := by
  revert b
  decide

/-- Blocks at one address are not apart. -/
theorem Apart.ne {x y : Block} (apart : Apart x y) : x.1 ≠ y.1 := by
  have := bucketSize_pos x.2
  have := bucketSize_pos y.2
  rcases apart with before | behind <;> omega

/-- The block behind a program's pointer. -/
def LiveBlock.block (block : LiveBlock) : Block := (block.address, (bucketOfSize block.request).getD 0)

/-- The blocks in use. -/
def liveBlocks (live : List LiveBlock) : Multiset Block := (live.map LiveBlock.block : List Block)

/-- A free list: of a worker, or of the global cache. -/
abbrev BlockPlace (W : Type) := Option W × Bucket

/-- The blocks of a free list. -/
def blocksAt {W : Type} (i : BlockPlace W) (addresses : List Nat) : Multiset Block :=
  (addresses.map fun a => (a, i.2) : List Block)

/-- The bytes of a collection of blocks. -/
def bytes (blocks : Multiset Block) : Int := (blocks.map fun x => (bucketSize x.2 : Int)).sum

theorem bytes_cons_block (x : Block) (blocks : Multiset Block) :
    bytes (x ::ₘ blocks) = bucketSize x.2 + bytes blocks := by
  simp [bytes]

@[simp] theorem bytes_cons (a : Nat) (b : Bucket) (blocks : Multiset Block) :
    bytes ((a, b) ::ₘ blocks) = bucketSize b + bytes blocks := by
  simp [bytes]

@[simp] theorem bytes_zero : bytes 0 = 0 := rfl

@[simp] theorem liveBlocks_cons (block : LiveBlock) (live : List LiveBlock) :
    liveBlocks (block :: live) = block.block ::ₘ liveBlocks live := rfl

theorem bytes_nonneg (blocks : Multiset Block) : 0 ≤ bytes blocks := by
  induction blocks using Multiset.induction with
  | empty => exact le_refl _
  | cons x blocks ih =>
    rw [bytes_cons]
    omega

/-- Pairwise apart, one block at a time. -/
theorem pairwise_apart_cons {x : Block} {blocks : Multiset Block} :
    (x ::ₘ blocks).Pairwise Apart ↔ (∀ y ∈ blocks, Apart x y) ∧ blocks.Pairwise Apart := by
  induction blocks using Quotient.inductionOn with
  | h blocks =>
    show Multiset.Pairwise Apart ((x :: blocks : List Block) : Multiset Block) ↔
      (∀ y ∈ (blocks : Multiset Block), Apart x y) ∧ Multiset.Pairwise Apart (blocks : Multiset Block)
    rw [Multiset.pairwise_coe_iff_pairwise, Multiset.pairwise_coe_iff_pairwise, List.pairwise_cons]
    rfl

/-- Blocks that are pairwise apart are distinct. -/
theorem nodup_of_apart {blocks : Multiset Block} (apart : blocks.Pairwise Apart) : blocks.Nodup := by
  obtain ⟨blocks, rfl, apart⟩ := apart
  exact Multiset.coe_nodup.mpr (apart.imp fun isApart same => isApart.ne (congrArg Prod.fst same))

section Lists

variable {W : Type} [Fintype W] {live : List LiveBlock} {lists : BlockPlace W → List Nat}
  {hand : Multiset Block} {i : BlockPlace W} {a : Nat}

/-- The blocks of all free lists. -/
def listed (lists : BlockPlace W → List Nat) : Multiset Block := ∑ i, blocksAt i (lists i)

/-- The bytes on the lists of some of the owners. -/
def listedBytes (counted : Option W → Bool) (lists : BlockPlace W → List Nat) : Int :=
  ∑ i : BlockPlace W, if counted i.1 then (bucketSize i.2 * (lists i).length : Int) else 0

/-- The bytes on the lists of the workers. -/
def workerBytes (lists : BlockPlace W → List Nat) : Int := listedBytes Option.isSome lists

/-- The bytes on the global lists. -/
def globalBytes (lists : BlockPlace W → List Nat) : Int := listedBytes Option.isNone lists

/-- The blocks of all places: in use, listed, and in the hands of the running call. -/
def allBlocks (live : List LiveBlock) (lists : BlockPlace W → List Nat) (hand : Multiset Block) :
    Multiset Block :=
  liveBlocks live + listed lists + hand

omit [Fintype W] in
theorem mem_blocksAt {x : Block} {addresses : List Nat} :
    x ∈ blocksAt i addresses ↔ x.2 = i.2 ∧ x.1 ∈ addresses := by
  obtain ⟨address, bucket⟩ := x
  simp only [blocksAt, Multiset.mem_coe, List.mem_map, Prod.mk.injEq]
  constructor
  · rintro ⟨_, isListed, rfl, rfl⟩
    exact ⟨rfl, isListed⟩
  · rintro ⟨rfl, isListed⟩
    exact ⟨address, isListed, rfl, rfl⟩

theorem mem_listed {x : Block} : x ∈ listed lists ↔ ∃ i, x.2 = i.2 ∧ x.1 ∈ lists i := by
  simp only [listed, Multiset.mem_sum, mem_blocksAt, Finset.mem_univ, true_and]

theorem blocksAt_le_allBlocks (i : BlockPlace W) : blocksAt i (lists i) ≤ allBlocks live lists hand := by
  have single : blocksAt i (lists i) ≤ listed lists :=
    Finset.single_le_sum (fun _ _ => Multiset.zero_le _) (Finset.mem_univ i)
  exact le_trans single (le_trans (Multiset.le_add_left _ _) (Multiset.le_add_right _ _))

theorem listedBytes_nonneg (counted : Option W → Bool) : 0 ≤ listedBytes counted lists := by
  refine Finset.sum_nonneg fun j _ => ?_
  split
  · exact Int.mul_nonneg (Int.natCast_nonneg _) (Int.natCast_nonneg _)
  · exact le_refl _

/-- One list is no longer than the bytes of all of them. -/
theorem length_le_listedBytes {counted : Option W → Bool} (isCounted : counted i.1) :
    ((lists i).length : Int) ≤ listedBytes counted lists := by
  have single := Finset.single_le_sum
    (f := fun j : BlockPlace W => if counted j.1 then (bucketSize j.2 * (lists j).length : Int) else 0)
    (fun j _ => by
      split
      · exact Int.mul_nonneg (Int.natCast_nonneg _) (Int.natCast_nonneg _)
      · exact le_refl _)
    (Finset.mem_univ i)
  simp only [isCounted, if_true] at single
  have one : ((lists i).length : Int) ≤ bucketSize i.2 * (lists i).length :=
    by exact_mod_cast Nat.le_mul_of_pos_left _ (bucketSize_pos i.2)
  exact le_trans one single

/-- A block handed to the program. -/
theorem allBlocks_give {block : LiveBlock} :
    allBlocks live lists (block.block ::ₘ hand) = allBlocks (block :: live) lists hand := by
  unfold allBlocks
  rw [liveBlocks_cons, Multiset.add_cons, Multiset.cons_add, Multiset.cons_add]

variable [DecidableEq W]

/-- A list that lost one cell accounts for one block less. -/
theorem listed_eq {new : List Nat} (moved : (lists i).Perm (a :: new)) :
    listed lists = (a, i.2) ::ₘ listed (Function.update lists i new) := by
  have sums := sum_update (fun j addresses => blocksAt j addresses) lists i new
  have old : blocksAt i (lists i) = (a, i.2) ::ₘ blocksAt i new :=
    Multiset.coe_eq_coe.mpr (moved.map _)
  rw [old, Multiset.add_cons, add_comm, ← Multiset.add_cons] at sums
  exact (add_left_cancel sums).symm

theorem listedBytes_eq (counted : Option W → Bool) {new : List Nat}
    (moved : (lists i).length = new.length + 1) :
    listedBytes counted lists =
      (if counted i.1 then (bucketSize i.2 : Int) else 0) +
        listedBytes counted (Function.update lists i new) := by
  have sums := sum_update
    (fun (j : BlockPlace W) addresses =>
      if counted j.1 then (bucketSize j.2 * (List.length addresses : Nat) : Int) else 0) lists i new
  unfold listedBytes
  rw [moved] at sums
  by_cases isCounted : counted i.1
  · simp only [isCounted, if_true] at sums ⊢
    push_cast at sums
    rw [Int.mul_add, Int.mul_one] at sums
    omega
  · simp only [isCounted, Bool.false_eq_true, if_false] at sums ⊢
    omega

/-- A block taken from a list. -/
theorem allBlocks_take {new : List Nat} (moved : (lists i).Perm (a :: new)) :
    allBlocks live lists hand = allBlocks live (Function.update lists i new) ((a, i.2) ::ₘ hand) := by
  unfold allBlocks
  rw [listed_eq moved, Multiset.add_cons, Multiset.cons_add, Multiset.add_cons]

/-- A block put in front of a list. -/
theorem allBlocks_put :
    allBlocks live lists ((a, i.2) ::ₘ hand) =
      allBlocks live (Function.update lists i (a :: lists i)) hand := by
  have moved : (Function.update lists i (a :: lists i) i).Perm (a :: lists i) := by
    rw [Function.update_self]
  rw [allBlocks_take moved, Function.update_idem, Function.update_eq_self]

/-- A block handed back by the program. -/
theorem liveBlocks_erase {block : LiveBlock} (isLive : block ∈ live) :
    liveBlocks live = block.block ::ₘ liveBlocks (live.erase block) :=
  Multiset.coe_eq_coe.mpr ((List.perm_cons_erase isLive).map _)

end Lists

/-- A block lies in a chunk, and not in what is left of the pool. -/
def FrameMemory.Holds (m : FrameMemory) (x : Block) : Prop :=
  x.1 ≠ 0 ∧
    (∃ chunk ∈ m.poolList, chunk ≤ x.1 ∧ x.1 + bucketSize x.2 ≤ chunk + frameMallocChunk) ∧
    (x.1 + bucketSize x.2 ≤ m.poolBegin ∨ m.poolEnd ≤ x.1)

/-- What is left of the pool is the end of a chunk; before the first chunk there is no pool. -/
def FrameMemory.PoolOk (m : FrameMemory) : Prop :=
  m.poolBegin ≤ m.poolEnd ∧
    (m.poolEnd = 0 ∨ ∃ chunk ∈ m.poolList, chunk ≠ 0 ∧ chunk ≤ m.poolBegin ∧
      m.poolEnd = chunk + frameMallocChunk)

section Accounts

variable {W : Type} [Fintype W] {m : FrameMemory} {live : List LiveBlock}
  {heads : BlockPlace W → Nat} {lists : BlockPlace W → List Nat} {hand : Multiset Block} {i : BlockPlace W}
  {w : W} {b : Bucket} {a : Nat}

/-- The accounts: the lists are where their heads point, the blocks of all places are apart and lie in
chunks, and the counters count them. `heads` are the pointers through which the lists are still used. -/
structure Accounts (m : FrameMemory) (live : List LiveBlock) (heads : BlockPlace W → Nat)
    (lists : BlockPlace W → List Nat) (hand : Multiset Block) : Prop where
  chain : ∀ i, Chain m.cdr (heads i) (lists i)
  globalHead : ∀ b, heads (none, b) = m.globalFreeList b
  apart : (allBlocks live lists hand).Pairwise Apart
  inside : ∀ x ∈ allBlocks live lists hand, m.Holds x
  pool : m.PoolOk
  wasted : 0 ≤ m.wasted
  os : m.allocatedFromOs =
    m.wasted + ((m.poolEnd : Int) - m.poolBegin) + globalBytes lists + m.allocatedFromGlobalPool
  given : m.allocatedFromGlobalPool = workerBytes lists + bytes (liveBlocks live) + bytes hand

/-- The block in hand is on no list. -/
theorem Accounts.not_listed {x : Block} (inv : Accounts m live heads lists (x ::ₘ hand)) (i : BlockPlace W) :
    x.1 ∉ lists i := by
  intro isListed
  have apart := inv.apart
  unfold allBlocks at apart
  rw [Multiset.add_cons, pairwise_apart_cons] at apart
  have clash := apart.1 (x.1, i.2)
    (Multiset.mem_add.mpr (.inl (Multiset.mem_add.mpr (.inr (mem_listed.mpr ⟨i, rfl, isListed⟩)))))
  exact clash.ne rfl

/-- The block in hand is not at address 0. -/
theorem Accounts.hand_ne_zero {x : Block} (inv : Accounts m live heads lists (x ::ₘ hand)) : x.1 ≠ 0 :=
  (inv.inside x (Multiset.mem_add.mpr (.inr (Multiset.mem_cons_self x hand)))).1

/-- No list holds a block twice. -/
theorem Accounts.nodup (inv : Accounts m live heads lists hand) (i : BlockPlace W) : (lists i).Nodup := by
  have distinct := nodup_of_apart inv.apart
  exact (Multiset.coe_nodup.mp (Multiset.nodup_of_le (blocksAt_le_allBlocks i) distinct)).of_map _

/-- A list of a worker has fewer blocks than the loops over it may make passes. -/
theorem Accounts.length_lt_fuel (inv : Accounts m live heads lists hand) (w : W) (b : Bucket) :
    (lists (some w, b)).length < m.listFuel := by
  have length : ((lists (some w, b)).length : Int) ≤ workerBytes lists := length_le_listedBytes rfl
  have global : 0 ≤ globalBytes lists := listedBytes_nonneg _
  have held := bytes_nonneg (liveBlocks live)
  have moving := bytes_nonneg hand
  have pool : (m.poolBegin : Int) ≤ m.poolEnd := by exact_mod_cast inv.pool.1
  have os := inv.os
  have given := inv.given
  have wasted := inv.wasted
  unfold FrameMemory.listFuel
  omega

/-! ### The primitives -/

/-- A carved block is apart from all others. -/
theorem Accounts.carve (inv : Accounts m live heads lists hand)
    (room : m.poolBegin + bucketSize b ≤ m.poolEnd) :
    m.poolBegin ≠ 0 ∧
    Accounts
      { m with
        poolBegin := m.poolBegin + bucketSize b
        allocatedFromGlobalPool := m.allocatedFromGlobalPool + bucketSize b }
      live heads lists ((m.poolBegin, b) ::ₘ hand) := by
  have size := bucketSize_pos b
  obtain ⟨ordered, none_ | ⟨chunk, isChunk, nonnull, low, high⟩⟩ := inv.pool
  · omega
  refine ⟨by omega, ?_⟩
  have all : allBlocks live lists ((m.poolBegin, b) ::ₘ hand) =
      (m.poolBegin, b) ::ₘ allBlocks live lists hand := Multiset.add_cons ..
  refine
    { chain := inv.chain
      globalHead := inv.globalHead
      apart := ?_
      inside := ?_
      pool := ⟨by show m.poolBegin + bucketSize b ≤ m.poolEnd; omega,
        .inr ⟨chunk, isChunk, nonnull, by show chunk ≤ m.poolBegin + bucketSize b; omega, high⟩⟩
      wasted := inv.wasted
      os := ?_
      given := ?_ }
  · rw [all, pairwise_apart_cons]
    refine ⟨fun y isBlock => ?_, inv.apart⟩
    rcases (inv.inside y isBlock).2.2 with before | behind
    · exact .inr before
    · exact .inl (le_trans room behind)
  · rw [all]
    intro y isBlock
    rcases Multiset.mem_cons.mp isBlock with isNew | isOld
    · subst isNew
      exact ⟨by show m.poolBegin ≠ 0; omega, ⟨chunk, isChunk, low, high ▸ room⟩, .inl (le_refl _)⟩
    · obtain ⟨nonzero, inChunk, outside⟩ := inv.inside y isOld
      refine ⟨nonzero, inChunk, ?_⟩
      show y.1 + bucketSize y.2 ≤ m.poolBegin + bucketSize b ∨ m.poolEnd ≤ y.1
      omega
  · have os := inv.os
    push_cast
    omega
  · have given := inv.given
    rw [bytes_cons]
    show m.allocatedFromGlobalPool + bucketSize b = _
    omega

/-- A fresh chunk replaces what is left of the pool. -/
theorem Accounts.extend (inv : Accounts m live heads lists hand) {chunk : Nat} (fresh : m.Fresh chunk) :
    Accounts
      (({ m with wasted := m.wasted + ((m.poolEnd : Int) - m.poolBegin) } :
        FrameMemory).extendGlobalPool chunk)
      live heads lists hand where
  chain := inv.chain
  globalHead := inv.globalHead
  apart := inv.apart
  inside := by
    intro x isBlock
    obtain ⟨nonzero, ⟨old, isOld, low, high⟩, -⟩ := inv.inside x isBlock
    refine ⟨nonzero, ⟨old, List.mem_cons_of_mem chunk isOld, low, high⟩, ?_⟩
    show x.1 + bucketSize x.2 ≤ chunk ∨ chunk + frameMallocChunk ≤ x.1
    rcases fresh.2 old isOld with before | behind
    · exact .inl (le_trans high before)
    · exact .inr (le_trans behind low)
  pool := ⟨Nat.le_add_right _ _, .inr ⟨chunk, List.mem_cons_self, fresh.1, le_refl _, rfl⟩⟩
  wasted := by
    have ordered : (m.poolBegin : Int) ≤ m.poolEnd := by exact_mod_cast inv.pool.1
    have wasted := inv.wasted
    show 0 ≤ m.wasted + ((m.poolEnd : Int) - m.poolBegin)
    omega
  os := by
    have os := inv.os
    show m.allocatedFromOs + frameMallocChunk = m.wasted + ((m.poolEnd : Int) - m.poolBegin) +
      (((chunk + frameMallocChunk : Nat) : Int) - chunk) + globalBytes lists + m.allocatedFromGlobalPool
    omega
  given := inv.given

/-- The block in hand is handed to the program. -/
theorem Accounts.give {block : LiveBlock} (inv : Accounts m live heads lists (block.block ::ₘ hand)) :
    Accounts m (block :: live) heads lists hand where
  chain := inv.chain
  globalHead := inv.globalHead
  apart := by
    rw [← allBlocks_give]
    exact inv.apart
  inside := by
    rw [← allBlocks_give]
    exact inv.inside
  pool := inv.pool
  wasted := inv.wasted
  os := inv.os
  given := by
    have given := inv.given
    rw [bytes_cons_block] at given
    rw [liveBlocks_cons, bytes_cons_block]
    omega

/-- A block in use comes into the hands of the call. -/
theorem Accounts.release {block : LiveBlock} (inv : Accounts m live heads lists hand)
    (isLive : block ∈ live) :
    Accounts m (live.erase block) heads lists (block.block ::ₘ hand) := by
  have blocks := liveBlocks_erase isLive
  have all : allBlocks live lists hand = allBlocks (live.erase block) lists (block.block ::ₘ hand) := by
    unfold allBlocks
    rw [blocks, Multiset.cons_add, Multiset.cons_add, Multiset.add_cons]
  refine
    { chain := inv.chain
      globalHead := inv.globalHead
      apart := all ▸ inv.apart
      inside := all ▸ inv.inside
      pool := inv.pool
      wasted := inv.wasted
      os := inv.os
      given := ?_ }
  have given := inv.given
  rw [blocks, bytes_cons_block] at given
  rw [bytes_cons_block]
  omega

variable [DecidableEq W]

/-- The links after a block in hand is put in front of a list. -/
theorem Accounts.chain_put (inv : Accounts m live heads lists ((a, i.2) ::ₘ hand)) (j : BlockPlace W) :
    Chain (Function.update m.cdr a (heads i)) (Function.update heads i a j)
      (Function.update lists i (a :: lists i) j) := by
  by_cases same : j = i
  · subst same
    rw [Function.update_self, Function.update_self]
    exact (inv.chain j).push inv.hand_ne_zero (inv.not_listed j)
  · rw [Function.update_of_ne same, Function.update_of_ne same]
    exact (inv.chain j).store (inv.not_listed j)

/-- A list that gained a cell, in the sums. -/
theorem listedBytes_put (counted : Option W → Bool) (lists : BlockPlace W → List Nat) (i : BlockPlace W)
    (a : Nat) :
    listedBytes counted (Function.update lists i (a :: lists i)) =
      (if counted i.1 then (bucketSize i.2 : Int) else 0) + listedBytes counted lists := by
  have moved : (Function.update lists i (a :: lists i) i).length = (lists i).length + 1 := by
    rw [Function.update_self, List.length_cons]
  rw [listedBytes_eq counted moved, Function.update_idem, Function.update_eq_self]

/-- `push` of the block in hand on a worker's list. -/
theorem Accounts.pushWorker (inv : Accounts m live heads lists ((a, b) ::ₘ hand)) (w : W) :
    Accounts (m.push (heads (some w, b)) a) live (Function.update heads (some w, b) a)
      (Function.update lists (some w, b) (a :: lists (some w, b))) hand where
  chain := fun j => inv.chain_put (i := (some w, b)) j
  globalHead := fun b' => (Function.update_of_ne (by simp) _ _).trans (inv.globalHead b')
  apart := allBlocks_put (i := (some w, b)) ▸ inv.apart
  inside := allBlocks_put (i := (some w, b)) ▸ inv.inside
  pool := inv.pool
  wasted := inv.wasted
  os := by
    have same := listedBytes_put Option.isNone lists (some w, b) a
    simp only [Option.isNone_some, Bool.false_eq_true, if_false, Int.zero_add] at same
    rw [globalBytes, same]
    exact inv.os
  given := by
    have more := listedBytes_put Option.isSome lists (some w, b) a
    simp only [Option.isSome_some, if_true] at more
    have given := inv.given
    rw [bytes_cons] at given
    rw [workerBytes, more]
    show m.allocatedFromGlobalPool = _
    rw [given, workerBytes]
    omega

/-- `global_free` of the block in hand. -/
theorem Accounts.freeGlobal (inv : Accounts m live heads lists ((a, b) ::ₘ hand)) :
    Accounts (globalFree m a b) live (Function.update heads (none, b) a)
      (Function.update lists (none, b) (a :: lists (none, b))) hand where
  chain := by
    intro j
    have chain := inv.chain_put (i := (none, b)) j
    rw [inv.globalHead b] at chain
    exact chain
  globalHead := by
    intro b'
    show Function.update heads ((none, b) : BlockPlace W) a (none, b') =
      Function.update m.globalFreeList b a b'
    by_cases same : b' = b
    · subst same
      rw [Function.update_self, Function.update_self]
    · have other : ((none, b') : BlockPlace W) ≠ (none, b) := by simpa using same
      rw [Function.update_of_ne other, Function.update_of_ne same]
      exact inv.globalHead b'
  apart := allBlocks_put (i := ((none, b) : BlockPlace W)) ▸ inv.apart
  inside := allBlocks_put (i := ((none, b) : BlockPlace W)) ▸ inv.inside
  pool := inv.pool
  wasted := inv.wasted
  os := by
    have more := listedBytes_put Option.isNone lists (none, b) a
    simp only [Option.isNone_none, if_true] at more
    have os := inv.os
    rw [globalBytes] at os
    rw [globalBytes, more]
    show m.allocatedFromOs = m.wasted + ((m.poolEnd : Int) - m.poolBegin) + _ +
      (m.allocatedFromGlobalPool - bucketSize b)
    omega
  given := by
    have same := listedBytes_put Option.isSome lists (none, b) a
    simp only [Option.isSome_none, Bool.false_eq_true, if_false, Int.zero_add] at same
    have given := inv.given
    rw [bytes_cons, workerBytes] at given
    rw [workerBytes, same]
    show m.allocatedFromGlobalPool - bucketSize b = _
    omega

/-- A block that leaves its list, in the sums of the owners that are not counted. -/
theorem listedBytes_take_other {counted : Option W → Bool} {new : List Nat}
    (moved : (lists i).Perm (a :: new)) (notCounted : counted i.1 = false) :
    listedBytes counted (Function.update lists i new) = listedBytes counted lists := by
  have eq := listedBytes_eq counted (moved.length_eq.trans (List.length_cons ..))
  rw [eq, notCounted]
  simp

/-- A block that leaves its list, in the sums of its owner. -/
theorem listedBytes_take {counted : Option W → Bool} {new : List Nat}
    (moved : (lists i).Perm (a :: new)) (isCounted : counted i.1 = true) :
    listedBytes counted lists =
      bucketSize i.2 + listedBytes counted (Function.update lists i new) := by
  have eq := listedBytes_eq counted (moved.length_eq.trans (List.length_cons ..))
  rw [eq, isCounted]
  simp

/-- A block of a worker's list comes into the hands of the call. The lists are changed by whatever store
the call makes; the other lists do not see it. -/
theorem Accounts.takeWorker {new : List Nat} {cdr : Nat → Nat} {head : Nat}
    (inv : Accounts m live heads lists hand) (moved : (lists (some w, b)).Perm (a :: new))
    (chain : Chain cdr head new)
    (others : ∀ j ≠ (some w, b), Chain cdr (heads j) (lists j)) :
    Accounts { m with cdr := cdr } live (Function.update heads (some w, b) head)
      (Function.update lists (some w, b) new) ((a, b) ::ₘ hand) where
  chain := by
    intro j
    by_cases same : j = (some w, b)
    · subst same
      rw [Function.update_self, Function.update_self]
      exact chain
    · rw [Function.update_of_ne same, Function.update_of_ne same]
      exact others j same
  globalHead := fun b' => (Function.update_of_ne (by simp) _ _).trans (inv.globalHead b')
  apart := allBlocks_take moved ▸ inv.apart
  inside := allBlocks_take moved ▸ inv.inside
  pool := inv.pool
  wasted := inv.wasted
  os := by
    rw [globalBytes, listedBytes_take_other moved rfl]
    exact inv.os
  given := by
    have given := inv.given
    have less : listedBytes Option.isSome lists = bucketSize b +
        listedBytes Option.isSome (Function.update lists (some w, b) new) := listedBytes_take moved rfl
    rw [workerBytes] at given ⊢
    rw [bytes_cons]
    show m.allocatedFromGlobalPool = _
    omega

/-- `pop` of the first block of a worker's list. -/
theorem Accounts.popWorker {rest : List Nat} (inv : Accounts m live heads lists hand)
    (isList : lists (some w, b) = a :: rest) :
    heads (some w, b) = a ∧ a ≠ 0 ∧
      Accounts m live (Function.update heads (some w, b) (m.cdr a))
        (Function.update lists (some w, b) rest) ((a, b) ::ₘ hand) := by
  have chain := inv.chain (some w, b)
  rw [isList] at chain
  refine ⟨chain.1, chain.2.1, ?_⟩
  exact inv.takeWorker (List.Perm.of_eq isList) chain.2.2 fun j _ => inv.chain j

/-- `pop` of the block behind another one of a worker's list. -/
theorem Accounts.cutWorker {kept rest : List Nat} {p q : Nat} (inv : Accounts m live heads lists hand)
    (isList : lists (some w, b) = kept ++ p :: q :: rest) :
    m.cdr p = q ∧ q ≠ 0 ∧
      Accounts { m with cdr := Function.update m.cdr p (m.cdr q) } live heads
        (Function.update lists (some w, b) (kept ++ p :: rest)) ((q, b) ::ₘ hand) := by
  have chain := inv.chain (some w, b)
  have nodup := inv.nodup (some w, b)
  have nonnull : q ≠ 0 := chain.ne_zero q (by simp [isList])
  have elsewhere : ∀ j ≠ (some w, b), p ∉ lists j := by
    -- otherwise the block at `p` would be in two places
    intro j other isListed
    have moved : (lists (some w, b)).Perm (p :: (kept ++ q :: rest)) := by
      rw [isList]
      exact List.perm_middle
    have apart := inv.apart
    rw [allBlocks_take moved, allBlocks, Multiset.add_cons, pairwise_apart_cons] at apart
    have listed_ : (p, j.2) ∈ listed (Function.update lists (some w, b) (kept ++ q :: rest)) :=
      mem_listed.mpr ⟨j, rfl, by rwa [Function.update_of_ne other]⟩
    exact (apart.1 _ (Multiset.mem_add.mpr (.inl (Multiset.mem_add.mpr (.inr listed_))))).ne rfl
  rw [isList] at chain nodup
  obtain ⟨isNext, cut⟩ := chain.cut nodup
  refine ⟨isNext, nonnull, ?_⟩
  have moved : (lists (some w, b)).Perm (q :: (kept ++ p :: rest)) := by
    rw [isList]
    have swapped : (kept ++ p :: q :: rest).Perm (kept ++ q :: p :: rest) :=
      (List.Perm.swap q p rest).append_left kept
    exact swapped.trans List.perm_middle
  have taken := inv.takeWorker moved cut fun j other => (inv.chain j).store (elsewhere j other)
  rwa [Function.update_eq_self] at taken

/-- `pop` of the first block of a global list. -/
theorem Accounts.popGlobal {rest : List Nat} (inv : Accounts m live heads lists hand)
    (isList : lists (none, b) = a :: rest) :
    Accounts
      { m with
        globalFreeList := Function.update m.globalFreeList b (m.cdr a)
        allocatedFromGlobalPool := m.allocatedFromGlobalPool + bucketSize b }
      live (Function.update heads (none, b) (m.cdr a)) (Function.update lists (none, b) rest)
      ((a, b) ::ₘ hand) := by
  have moved : (lists (none, b)).Perm (a :: rest) := List.Perm.of_eq isList
  have chain := inv.chain (none, b)
  rw [isList] at chain
  refine
    { chain := ?_
      globalHead := ?_
      apart := allBlocks_take moved ▸ inv.apart
      inside := allBlocks_take moved ▸ inv.inside
      pool := inv.pool
      wasted := inv.wasted
      os := ?_
      given := ?_ }
  · intro j
    by_cases same : j = (none, b)
    · subst same
      rw [Function.update_self, Function.update_self]
      exact chain.2.2
    · rw [Function.update_of_ne same, Function.update_of_ne same]
      exact inv.chain j
  · intro b'
    show Function.update heads ((none, b) : BlockPlace W) (m.cdr a) (none, b') =
      Function.update m.globalFreeList b (m.cdr a) b'
    by_cases same : b' = b
    · subst same
      rw [Function.update_self, Function.update_self]
    · have other : ((none, b') : BlockPlace W) ≠ (none, b) := by simpa using same
      rw [Function.update_of_ne other, Function.update_of_ne same]
      exact inv.globalHead b'
  · have os := inv.os
    have less : listedBytes Option.isNone lists = bucketSize b +
        listedBytes Option.isNone (Function.update lists (none, b) rest) := listedBytes_take moved rfl
    rw [globalBytes] at os ⊢
    show m.allocatedFromOs = m.wasted + ((m.poolEnd : Int) - m.poolBegin) + _ +
      (m.allocatedFromGlobalPool + bucketSize b)
    omega
  · have given := inv.given
    rw [workerBytes, listedBytes_take_other moved rfl, bytes_cons]
    rw [workerBytes] at given
    show m.allocatedFromGlobalPool + bucketSize b = _
    omega

end Accounts

end CilkL
