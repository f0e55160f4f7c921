/-
Module: CilkL.Proofs.FrameAllocator
Layer: Proofs
Purpose: The frame allocator keeps its accounts under every sequence of calls in which no call names a
  worker that was cleaned up before. One lemma for each function of frame_malloc.c says which list heads it
  changes and that the accounts hold again when it returns; the loops over a list are by induction on the
  blocks that the list still has. The cleanup leaves the worker's own pointers as they are, so a worker
  that is used again hands out blocks that are on the global lists, too.
Imports: CilkL.Proofs.FrameMalloc
Trusted boundary: none
Main exports: AllocatorInv, FrameMallocSound, frame_malloc_sound, frame_malloc_unsound_after_cleanup
Open obligations: none
-/
import CilkL.Proofs.FrameMalloc

namespace CilkL

variable {W : Type} [Fintype W] [DecidableEq W] {m m' : FrameMemory} {live : List LiveBlock}
  {heads heads' : BlockPlace W → Nat} {lists : BlockPlace W → List Nat} {hand : Multiset Block} {w : W}
  {b : Bucket} {l l' : WorkerBucket} {chunks chunks' : List Nat} {a mem p fuel : Nat}

/-- No list of a worker starts elsewhere than before, but perhaps that of one bucket of one worker. -/
def SameHeadsBut (w : W) (b : Bucket) (heads heads' : BlockPlace W → Nat) : Prop :=
  ∀ w' b', (w', b') ≠ (w, b) → heads' (some w', b') = heads (some w', b')

omit [Fintype W] [DecidableEq W] in
theorem SameHeadsBut.refl : SameHeadsBut w b heads heads := fun _ _ _ => rfl

omit [Fintype W] [DecidableEq W] in
theorem SameHeadsBut.trans {heads'' : BlockPlace W → Nat} (first : SameHeadsBut w b heads heads')
    (second : SameHeadsBut w b heads' heads'') : SameHeadsBut w b heads heads'' :=
  fun w' b' other => (second w' b' other).trans (first w' b' other)

omit [Fintype W] in
theorem SameHeadsBut.update (head : Nat) :
    SameHeadsBut w b heads (Function.update heads (some w, b) head) := by
  intro w' b' other
  refine Function.update_of_ne ?_ _ _
  simpa using other

/-! ### The global cache -/

/-- `global_alloc` puts a block into the hands of its caller and leaves the workers' lists alone. -/
theorem Accounts.globalAlloc (inv : Accounts m live heads lists hand)
    (result : globalAlloc m b chunks = some (m', mem, chunks')) :
    ∃ heads' lists', Accounts m' live heads' lists' ((mem, b) ::ₘ hand) ∧
      ∀ w b', heads' (some w, b') = heads (some w, b') := by
  unfold CilkL.globalAlloc at result
  by_cases isEmpty : m.globalFreeList b = 0
  · -- the block is carved, from a fresh chunk if the pool is too small
    simp only [FrameMemory.pop, isEmpty, if_true] at result
    split at result
    · split at result
      · exact absurd result (by simp)
      · split at result
        · rename_i chunk chunks fresh
          cases result
          have carved := ((inv.extend fresh).carve (Nat.add_le_add_left (bucketSize_le_chunk b) _)).2
          exact ⟨heads, lists, carved, fun _ _ => rfl⟩
        · exact absurd result (by simp)
    · rename_i room
      cases result
      exact ⟨heads, lists, (inv.carve (by omega)).2, fun _ _ => rfl⟩
  · -- the first block of the global list
    simp only [FrameMemory.pop, isEmpty, if_false] at result
    cases result
    have chain := inv.chain (none, b)
    rw [inv.globalHead b] at chain
    obtain ⟨rest, isList, -⟩ := chain.eq_cons isEmpty
    exact ⟨_, _, inv.popGlobal isList, fun w b' => Function.update_of_ne (by simp) _ _⟩

/-! ### Filling and emptying a worker's list -/

/-- The loop of `allocate_batch` leaves the accounts in order, and only its own list is another one. -/
theorem Accounts.allocateBatchLoop {fuel bytesAllocated : Nat} (inv : Accounts m live heads lists hand)
    (head : heads (some w, b) = l.freeList)
    (result : allocateBatchLoop b fuel bytesAllocated m l chunks = some (m', l', chunks')) :
    ∃ heads' lists', Accounts m' live heads' lists' hand ∧ heads' (some w, b) = l'.freeList ∧
      SameHeadsBut w b heads heads' := by
  induction fuel generalizing bytesAllocated m l chunks heads lists with
  | zero => exact absurd result (by simp [CilkL.allocateBatchLoop])
  | succ fuel ih =>
    simp only [CilkL.allocateBatchLoop] at result
    split at result
    · exact absurd result (by simp)
    · rename_i m₁ mem chunks₁ allocated
      obtain ⟨heads₁, lists₁, inv₁, workers⟩ := inv.globalAlloc allocated
      have pushed := inv₁.pushWorker w
      rw [workers, head] at pushed
      have same : SameHeadsBut w b heads (Function.update heads₁ (some w, b) mem) := by
        intro w' b' other
        rw [SameHeadsBut.update mem w' b' other, workers]
      split at result
      · obtain ⟨heads₂, lists₂, inv₂, head₂, same₂⟩ :=
          ih (l := { freeList := mem, potential := l.potential + bucketSize b }) pushed
            (Function.update_self ..) result
        exact ⟨heads₂, lists₂, inv₂, head₂, same.trans same₂⟩
      · cases result
        exact ⟨_, _, pushed, Function.update_self .., same⟩

/-- `__cilkrts_frame_malloc` on its bucket puts a block into the hands of its caller. -/
theorem Accounts.frameMallocLoop (inv : Accounts m live heads lists hand)
    (head : heads (some w, b) = l.freeList)
    (result : frameMallocLoop b fuel m l chunks = some (m', l', mem)) :
    ∃ heads' lists', Accounts m' live heads' lists' ((mem, b) ::ₘ hand) ∧
      heads' (some w, b) = l'.freeList ∧ SameHeadsBut w b heads heads' := by
  induction fuel generalizing m l chunks heads lists with
  | zero => exact absurd result (by simp [CilkL.frameMallocLoop])
  | succ fuel ih =>
    simp only [CilkL.frameMallocLoop] at result
    by_cases isEmpty : l.freeList = 0
    · -- get a batch and try again
      simp only [FrameMemory.pop, isEmpty, if_true] at result
      split at result
      · exact absurd result (by simp)
      · rename_i m₁ l₁ chunks₁ allocated
        obtain ⟨heads₁, lists₁, inv₁, head₁, same₁⟩ := inv.allocateBatchLoop head allocated
        obtain ⟨heads₂, lists₂, inv₂, head₂, same₂⟩ := ih inv₁ head₁ result
        exact ⟨heads₂, lists₂, inv₂, head₂, same₁.trans same₂⟩
    · simp only [FrameMemory.pop, isEmpty, if_false] at result
      cases result
      have chain := inv.chain (some w, b)
      rw [head] at chain
      obtain ⟨rest, isList, -⟩ := chain.eq_cons isEmpty
      exact ⟨_, _, (inv.popWorker isList).2.2, Function.update_self .., SameHeadsBut.update _⟩

/-- The walk of `gc_bucket` ends at a block of the list, or behind its last one. -/
theorem gcWalk_ends {xs : List Nat} (size pot newpot : Nat) (chain : Chain m.cdr p xs)
    (enough : xs.length < fuel) :
    ∃ newpot' p', gcWalk m size pot fuel newpot p = some (newpot', p') ∧
      (p' ≠ 0 → ∃ kept rest, xs = kept ++ p' :: rest) := by
  induction fuel generalizing newpot p xs with
  | zero => omega
  | succ fuel ih =>
    simp only [gcWalk]
    by_cases more : p ≠ 0 ∧ 2 * newpot < pot
    · obtain ⟨rest, rfl, tail⟩ := chain.eq_cons more.1
      rw [if_pos more]
      obtain ⟨newpot', p', walked, found⟩ := ih (newpot + size) tail (Nat.lt_of_succ_lt_succ enough)
      refine ⟨newpot', p', walked, fun nonnull => ?_⟩
      obtain ⟨kept, behind, rfl⟩ := found nonnull
      exact ⟨p :: kept, behind, rfl⟩
    · rw [if_neg more]
      refine ⟨newpot, p, rfl, fun nonnull => ?_⟩
      obtain ⟨rest, rfl, -⟩ := chain.eq_cons nonnull
      exact ⟨[], rest, rfl⟩

/-- The loop of `gc_bucket` moves every block behind `p` to the global list. -/
theorem Accounts.freeRest {kept rest : List Nat} (inv : Accounts m live heads lists hand)
    (isList : lists (some w, b) = kept ++ p :: rest) (enough : rest.length < fuel) :
    ∃ m' heads' lists', freeRest b p fuel m = some m' ∧ Accounts m' live heads' lists' hand ∧
      ∀ w b', heads' (some w, b') = heads (some w, b') := by
  induction rest generalizing fuel m heads lists with
  | nil =>
    obtain ⟨fuel, rfl⟩ : ∃ n, fuel = n + 1 := ⟨fuel - 1, by simp at enough; omega⟩
    have chain := inv.chain (some w, b)
    rw [isList] at chain
    refine ⟨m, heads, lists, ?_, inv, fun _ _ => rfl⟩
    simp [CilkL.freeRest, FrameMemory.pop, chain.last]
  | cons q rest ih =>
    obtain ⟨fuel, rfl⟩ : ∃ n, fuel = n + 1 := ⟨fuel - 1, by simp at enough; omega⟩
    obtain ⟨isNext, nonnull, cut⟩ := inv.cutWorker isList
    have isList' : Function.update (Function.update lists (some w, b) (kept ++ p :: rest)) (none, b)
        (q :: Function.update lists (some w, b) (kept ++ p :: rest) (none, b)) (some w, b) =
          kept ++ p :: rest := by
      rw [Function.update_of_ne (by simp), Function.update_self]
    obtain ⟨m', heads', lists', freed, inv', workers⟩ :=
      ih cut.freeGlobal isList' (by simpa using enough)
    refine ⟨m', heads', lists', ?_, inv', fun w b' => ?_⟩
    · simp only [CilkL.freeRest, FrameMemory.pop, isNext, nonnull, if_false]
      exact freed
    · rw [workers, Function.update_of_ne (by simp)]

/-- `gc_bucket` returns, and the worker's lists start where they did. -/
theorem Accounts.gcBucket (inv : Accounts m live heads lists hand)
    (head : heads (some w, b) = l.freeList) :
    ∃ m' l' heads' lists', gcBucket m l b = some (m', l') ∧ Accounts m' live heads' lists' hand ∧
      l'.freeList = l.freeList ∧ ∀ w b', heads' (some w, b') = heads (some w, b') := by
  have chain := inv.chain (some w, b)
  rw [head] at chain
  have enough := inv.length_lt_fuel w b
  obtain ⟨newpot, p, walked, found⟩ :=
    gcWalk_ends (bucketSize b) l.potential 0 chain enough
  simp only [CilkL.gcBucket, walked]
  by_cases nonnull : p = 0
  · refine ⟨m, { l with potential := newpot }, heads, lists, ?_, inv, rfl, fun _ _ => rfl⟩
    simp [nonnull]
  · obtain ⟨kept, rest, isList⟩ := found nonnull
    have shorter : rest.length < m.listFuel := by
      have length := congrArg List.length isList
      rw [List.length_append, List.length_cons] at length
      omega
    obtain ⟨m', heads', lists', freed, inv', workers⟩ := inv.freeRest isList shorter
    refine ⟨m', { l with potential := newpot }, heads', lists', ?_, inv', rfl, workers⟩
    simp [nonnull, freed]

/-- The loop of `move_bucket_to_global_free_list` moves the whole list, seen from its local variable. -/
theorem Accounts.freeAll {xs : List Nat} (inv : Accounts m live heads lists hand)
    (isList : lists (some w, b) = xs) (head : heads (some w, b) = p) (enough : xs.length < fuel) :
    ∃ m' heads' lists', freeAll b fuel p m = some m' ∧ Accounts m' live heads' lists' hand ∧
      heads' (some w, b) = 0 ∧ SameHeadsBut w b heads heads' := by
  induction xs generalizing fuel m heads lists p with
  | nil =>
    obtain ⟨fuel, rfl⟩ : ∃ n, fuel = n + 1 := ⟨fuel - 1, by simp at enough; omega⟩
    have chain := inv.chain (some w, b)
    rw [isList] at chain
    have isEmpty : p = 0 := head.symm.trans chain
    refine ⟨m, heads, lists, ?_, inv, chain, SameHeadsBut.refl⟩
    simp [CilkL.freeAll, FrameMemory.pop, isEmpty]
  | cons q rest ih =>
    obtain ⟨fuel, rfl⟩ : ∃ n, fuel = n + 1 := ⟨fuel - 1, by simp at enough; omega⟩
    obtain ⟨isFirst, nonnull, popped⟩ := inv.popWorker isList
    have isHead : p = q := head.symm.trans isFirst
    subst isHead
    have isList' : Function.update (Function.update lists (some w, b) rest) (none, b)
        (p :: Function.update lists (some w, b) rest (none, b)) (some w, b) = rest := by
      rw [Function.update_of_ne (by simp), Function.update_self]
    have head' : Function.update (Function.update heads (some w, b) (m.cdr p)) (none, b) p (some w, b) =
        m.cdr p := by
      rw [Function.update_of_ne (by simp), Function.update_self]
    obtain ⟨m', heads', lists', freed, inv', head'', same⟩ :=
      ih popped.freeGlobal isList' head' (by simpa using enough)
    refine ⟨m', heads', lists', ?_, inv', head'', ?_⟩
    · simp only [CilkL.freeAll, FrameMemory.pop, nonnull, if_false]
      exact freed
    · intro w' b' other
      rw [same w' b' other, Function.update_of_ne (by simp), SameHeadsBut.update _ w' b' other]

/-! ### The calls -/

/-- The invariant: the accounts hold with nothing in hand, for the lists of the workers that were not
cleaned up; the lists of the others are gone. -/
def AllocatorInv (s : FrameAllocator W) : Prop :=
  ∃ heads lists, Accounts s.memory s.live heads lists 0 ∧
    (∀ w b, heads (some w, b) = if s.cleaned w then 0 else (s.worker w b).freeList) ∧
    ∀ block ∈ s.live, (bucketOfSize block.request).isSome

/-- `bucket_of_size` finds a bucket that is large enough. -/
theorem bucketOfSize_spec {size : Nat} (found : bucketOfSize size = some b) : size ≤ bucketSize b := by
  simpa using List.find?_some found

omit [Fintype W] in
/-- The lists of the workers after one bucket of one of them was written. -/
theorem heads_setBucket {s : FrameAllocator W} (m : FrameMemory) (notCleaned : s.cleaned w = false)
    (before : ∀ w b, heads (some w, b) = if s.cleaned w then 0 else (s.worker w b).freeList)
    (head : heads' (some w, b) = l.freeList) (same : SameHeadsBut w b heads heads') (w' : W)
    (b' : Bucket) :
    heads' (some w', b') =
      if s.cleaned w' then 0 else ((s.setBucket m w b l).worker w' b').freeList := by
  by_cases isBucket : (w', b') = (w, b)
  · obtain ⟨rfl, rfl⟩ := Prod.mk.inj isBucket
    simp [notCleaned, FrameAllocator.setBucket, head]
  · rw [same w' b' isBucket, before]
    congr 2
    simp only [FrameAllocator.setBucket]
    by_cases isWorker : w' = w
    · subst isWorker
      have other : b' ≠ b := fun isSame => isBucket (by rw [isSame])
      rw [Function.update_self, Function.update_of_ne other]
    · rw [Function.update_of_ne isWorker]

/-- `__cilkrts_frame_malloc`. -/
theorem AllocatorInv.malloc {s s' : FrameAllocator W} {size mem : Nat} (inv : AllocatorInv s)
    (notCleaned : s.cleaned w = false) (result : frameMalloc s w size chunks = some (s', mem)) :
    AllocatorInv { s' with live := ⟨mem, size⟩ :: s'.live } := by
  obtain ⟨heads, lists, accounts, workers, sizes⟩ := inv
  unfold frameMalloc at result
  split at result
  · exact absurd result (by simp)
  · rename_i bucket found
    simp only [Option.map_eq_some_iff] at result
    obtain ⟨⟨m, l, mem'⟩, looped, isResult⟩ := result
    cases isResult
    have head : heads (some w, bucket) = (s.worker w bucket).freeList := by
      rw [workers, notCleaned]
      rfl
    obtain ⟨heads', lists', accounts', head', same⟩ := accounts.frameMallocLoop head looped
    refine ⟨heads', lists', ?_, heads_setBucket m notCleaned workers head' same, ?_⟩
    · have block : (⟨mem', size⟩ : LiveBlock).block = (mem', bucket) := by simp [LiveBlock.block, found]
      rw [← block] at accounts'
      exact accounts'.give
    · intro block isLive
      rcases List.mem_cons.mp isLive with isNew | isOld
      · rw [isNew, found]
        rfl
      · exact sizes block isOld

/-- `__cilkrts_frame_free`. -/
theorem AllocatorInv.free {s s' : FrameAllocator W} {block : LiveBlock} (inv : AllocatorInv s)
    (notCleaned : s.cleaned w = false) (isLive : block ∈ s.live)
    (result : frameFree s w block.address block.request = some s') :
    AllocatorInv { s' with live := s'.live.erase block } := by
  obtain ⟨heads, lists, accounts, workers, sizes⟩ := inv
  unfold frameFree at result
  split at result
  · exact absurd result (by simp)
  · rename_i bucket found
    have head : heads (some w, bucket) = (s.worker w bucket).freeList := by
      rw [workers, notCleaned]
      rfl
    have isBlock : block.block = (block.address, bucket) := by simp [LiveBlock.block, found]
    have released := accounts.release isLive
    rw [isBlock] at released
    have pushed := released.pushWorker w
    rw [head] at pushed
    have sizes' : ∀ other ∈ s.live.erase block, (bucketOfSize other.request).isSome :=
      fun other isOther => sizes other (List.mem_of_mem_erase isOther)
    simp only at result
    split at result
    · -- the bucket is garbage-collected
      simp only [Option.map_eq_some_iff] at result
      obtain ⟨⟨m, l⟩, collected, isResult⟩ := result
      cases isResult
      obtain ⟨m', l', heads', lists', collected', accounts', head', same⟩ :=
        pushed.gcBucket (w := w) (b := bucket)
          (l := { freeList := block.address
                  potential := (s.worker w bucket).potential + bucketSize bucket })
          (Function.update_self ..)
      obtain ⟨rfl, rfl⟩ := Prod.mk.inj (Option.some.inj (collected'.symm.trans collected))
      refine ⟨heads', lists', accounts', heads_setBucket m' notCleaned workers ?_ ?_, sizes'⟩
      · rw [same, head', Function.update_self]
      · intro w' b' other
        rw [same, SameHeadsBut.update _ w' b' other]
    · cases result
      exact ⟨_, _, pushed, heads_setBucket (s.memory.push (s.worker w bucket).freeList block.address)
        notCleaned workers (Function.update_self ..) (SameHeadsBut.update _), sizes'⟩

/-- The lists that are still used while a worker is cleaned up: its buckets in `emptied` are not. -/
def CleaningHeads (s : FrameAllocator W) (w : W) (emptied : List Bucket) (heads : BlockPlace W → Nat) : Prop :=
  ∀ w' b, heads (some w', b) =
    if s.cleaned w' ∨ (w' = w ∧ b ∈ emptied) then 0 else (s.worker w' b).freeList

/-- The loop of `__cilkrts_frame_malloc_per_worker_cleanup` returns with every bucket moved. -/
theorem cleanupBuckets_moves (buckets : List Bucket) {emptied : List Bucket} {s : FrameAllocator W}
    (accounts : Accounts s.memory s.live heads lists 0) (notCleaned : s.cleaned w = false)
    (cleaning : CleaningHeads s w emptied heads) (nodup : (emptied ++ buckets).Nodup) :
    ∃ s' heads' lists', cleanupBuckets w buckets s = some s' ∧ s'.live = s.live ∧
      s'.cleaned = s.cleaned ∧ Accounts s'.memory s'.live heads' lists' 0 ∧
      CleaningHeads s' w (emptied ++ buckets) heads' := by
  induction buckets generalizing emptied s heads lists with
  | nil => exact ⟨s, heads, lists, rfl, rfl, rfl, accounts, by simpa using cleaning⟩
  | cons bucket buckets ih =>
    have isNew : bucket ∉ emptied := fun isOld =>
      (List.nodup_append.mp nodup).2.2 bucket isOld bucket List.mem_cons_self rfl
    have head : heads (some w, bucket) = (s.worker w bucket).freeList := by
      rw [cleaning, if_neg (by simp [notCleaned, isNew])]
    obtain ⟨m', heads', lists', freed, accounts', head', same⟩ :=
      accounts.freeAll rfl head (accounts.length_lt_fuel w bucket)
    have cleaning' : CleaningHeads (s.setBucket m' w bucket { s.worker w bucket with potential := 0 }) w
        (emptied ++ [bucket]) heads' := by
      intro w' b'
      by_cases isBucket : (w', b') = (w, bucket)
      · obtain ⟨rfl, rfl⟩ := Prod.mk.inj isBucket
        rw [head', if_pos (.inr ⟨rfl, by simp⟩)]
      · rw [same w' b' isBucket, cleaning]
        have unchanged : ((s.setBucket m' w bucket { s.worker w bucket with potential := 0 }).worker
            w' b').freeList = (s.worker w' b').freeList := by
          simp only [FrameAllocator.setBucket]
          by_cases isWorker : w' = w
          · subst isWorker
            have other : b' ≠ bucket := fun isSame => isBucket (by rw [isSame])
            rw [Function.update_self, Function.update_of_ne other]
          · rw [Function.update_of_ne isWorker]
        rw [unchanged]
        refine if_congr ?_ rfl rfl
        refine or_congr Iff.rfl (and_congr_right fun isWorker => ?_)
        subst isWorker
        have other : b' ≠ bucket := fun isSame => isBucket (by rw [isSame])
        simp [other]
    obtain ⟨s', heads'', lists'', cleaned, live, flags, accounts'', cleaning''⟩ :=
      ih (s := s.setBucket m' w bucket { s.worker w bucket with potential := 0 }) accounts' notCleaned
        cleaning' (by simpa using nodup)
    refine ⟨s', heads'', lists'', ?_, live, flags, accounts'', by simpa using cleaning''⟩
    simp only [cleanupBuckets, moveBucketToGlobalFreeList, freed, Option.map_some]
    exact cleaned

/-- `__cilkrts_frame_malloc_per_worker_cleanup`. -/
theorem AllocatorInv.cleanup {s s' : FrameAllocator W} (inv : AllocatorInv s)
    (notCleaned : s.cleaned w = false) (result : perWorkerCleanup s w = some s') :
    AllocatorInv { s' with cleaned := Function.update s'.cleaned w true } := by
  obtain ⟨heads, lists, accounts, workers, sizes⟩ := inv
  have cleaning : CleaningHeads s w [] heads := fun w' b => by simpa using workers w' b
  obtain ⟨after, heads', lists', cleaned, live, -, accounts', cleaning'⟩ :=
    cleanupBuckets_moves (List.finRange 6) accounts notCleaned cleaning
      (by simpa using List.nodup_finRange 6)
  cases Option.some.inj (cleaned.symm.trans result)
  refine ⟨heads', lists', accounts', fun w' b => ?_, live ▸ sizes⟩
  rw [cleaning']
  by_cases isWorker : w' = w
  · subst isWorker
    simp
  · simp [isWorker]

omit [DecidableEq W] in
/-- A store of the program into a block it holds. -/
theorem AllocatorInv.store {s : FrameAllocator W} {block : LiveBlock} {address value : Nat}
    (inv : AllocatorInv s) (isLive : block ∈ s.live)
    (inBlock : block.address ≤ address ∧ address < block.address + block.request) :
    AllocatorInv
      { s with memory := { s.memory with cdr := Function.update s.memory.cdr address value } } := by
  obtain ⟨heads, lists, accounts, workers, sizes⟩ := inv
  have outside : ∀ i, address ∉ lists i := by
    -- a listed block is apart from the block that the program holds
    intro i isListed
    obtain ⟨bucket, found⟩ := Option.isSome_iff_exists.mp (sizes block isLive)
    have isBlock : block.block = (block.address, bucket) := by simp [LiveBlock.block, found]
    have large := bucketOfSize_spec found
    have apart := (accounts.release isLive).apart
    rw [allBlocks, Multiset.add_cons, pairwise_apart_cons] at apart
    have clash := apart.1 (address, i.2)
      (Multiset.mem_add.mpr (.inl (Multiset.mem_add.mpr (.inr (mem_listed.mpr ⟨i, rfl, isListed⟩)))))
    rw [isBlock] at clash
    have size := bucketSize_pos i.2
    unfold Apart at clash
    simp only at clash
    omega
  exact ⟨heads, lists,
    { accounts with chain := fun i => (accounts.chain i).store (outside i) }, workers, sizes⟩

omit [DecidableEq W] in
/-- The accounts of the empty allocator. -/
theorem allocatorInv_initial : AllocatorInv (FrameAllocator.initial W) := by
  refine ⟨fun _ => 0, fun _ => [], ?_, fun _ _ => rfl, by simp [FrameAllocator.initial]⟩
  have none_ : allBlocks ([] : List LiveBlock) (fun _ : BlockPlace W => []) 0 = 0 := by
    simp [allBlocks, listed, blocksAt, liveBlocks]
  refine
    { chain := fun _ => rfl
      globalHead := fun _ => rfl
      apart := ?_
      inside := ?_
      pool := ⟨le_refl _, .inl rfl⟩
      wasted := le_refl _
      os := ?_
      given := ?_ }
  · exact none_.symm ▸ Multiset.pairwise_zero Apart
  · intro x isBlock
    exact absurd (none_ ▸ isBlock) (Multiset.notMem_zero x)
  · simp [FrameAllocator.initial, globalBytes, listedBytes]
  · simp [FrameAllocator.initial, workerBytes, listedBytes, liveBlocks, bytes]

/-! ### Runs -/

/-- No call names a worker that was cleaned up before. The only caller of the cleanup, `destroy_worker`,
frees the worker's local state right after it. -/
def NotAfterCleanup (s : FrameAllocator W) (label : FrameLabel W) : Prop :=
  match label.worker with
  | some w => s.cleaned w = false
  | none => True

instance (s : FrameAllocator W) (label : FrameLabel W) : Decidable (NotAfterCleanup s label) := by
  unfold NotAfterCleanup
  split <;> infer_instance

/-- What the allocator promises: `lists` are the free lists of the workers that were not cleaned up and
the global ones; the blocks in use and on these lists share no byte, lie in chunks of the operating
system and are as large as requested; and the counters balance. -/
structure FrameMallocSound (s : FrameAllocator W) (lists : BlockPlace W → List Nat) : Prop where
  workerList : ∀ w b, s.cleaned w = false →
    Chain s.memory.cdr (s.worker w b).freeList (lists (some w, b))
  cleanedList : ∀ w b, s.cleaned w = true → lists (some w, b) = []
  globalList : ∀ b, Chain s.memory.cdr (s.memory.globalFreeList b) (lists (none, b))
  apart : (liveBlocks s.live + listed lists).Pairwise Apart
  inChunk : ∀ x ∈ liveBlocks s.live + listed lists, ∃ chunk ∈ s.memory.poolList,
    chunk ≤ x.1 ∧ x.1 + bucketSize x.2 ≤ chunk + frameMallocChunk
  large : ∀ block ∈ s.live, block.request ≤ bucketSize block.block.2
  os : s.memory.allocatedFromOs =
    s.memory.wasted + ((s.memory.poolEnd : Int) - s.memory.poolBegin) + globalBytes lists +
      s.memory.allocatedFromGlobalPool
  given : s.memory.allocatedFromGlobalPool = workerBytes lists + bytes (liveBlocks s.live)
  drained : s.live = [] → (∀ w, s.cleaned w = true) → s.memory.allocatedFromGlobalPool = 0

omit [DecidableEq W] in
/-- The invariant is what the allocator promises. -/
theorem AllocatorInv.sound {s : FrameAllocator W} (inv : AllocatorInv s) :
    ∃ lists, FrameMallocSound s lists := by
  obtain ⟨heads, lists, accounts, workers, sizes⟩ := inv
  have all : allBlocks s.live lists 0 = liveBlocks s.live + listed lists := add_zero _
  have given : s.memory.allocatedFromGlobalPool = workerBytes lists + bytes (liveBlocks s.live) := by
    rw [accounts.given, bytes_zero, Int.add_zero]
  have cleanedList : ∀ w b, s.cleaned w = true → lists (some w, b) = [] := by
    intro w b isCleaned
    have chain := accounts.chain (some w, b)
    rw [workers, isCleaned] at chain
    exact chain.eq_nil
  refine ⟨lists,
    { workerList := ?_
      cleanedList := cleanedList
      globalList := fun b => accounts.globalHead b ▸ accounts.chain (none, b)
      apart := all ▸ accounts.apart
      inChunk := fun x isBlock => (accounts.inside x (all ▸ isBlock)).2.1
      large := ?_
      os := accounts.os
      given := given
      drained := ?_ }⟩
  · intro w b notCleaned
    have chain := accounts.chain (some w, b)
    rw [workers, notCleaned] at chain
    exact chain
  · intro block isLive
    obtain ⟨bucket, found⟩ := Option.isSome_iff_exists.mp (sizes block isLive)
    have isBlock : block.block.2 = bucket := by simp [LiveBlock.block, found]
    exact isBlock ▸ bucketOfSize_spec found
  · intro noneLive allCleaned
    have noneListed : workerBytes lists = 0 := by
      refine Finset.sum_eq_zero ?_
      rintro ⟨owner, b⟩ -
      cases owner with
      | none => rfl
      | some w => simp [cleanedList w b (allCleaned w)]
    rw [given, noneListed, noneLive]
    rfl

/-- One call keeps the invariant. -/
theorem allocatorInv_step {s s' : FrameAllocator W} {label : FrameLabel W} (inv : AllocatorInv s)
    (allowed : NotAfterCleanup s label) (step : allocatorStep s label = some s') : AllocatorInv s' := by
  cases label with
  | malloc w size chunks =>
    simp only [allocatorStep] at step
    split at step
    · obtain ⟨⟨after, mem⟩, result, isNext⟩ := Option.map_eq_some_iff.mp step
      exact isNext ▸ inv.malloc allowed result
    · exact absurd step (by simp)
  | free w block =>
    simp only [allocatorStep] at step
    split at step
    · rename_i isLive
      obtain ⟨after, result, isNext⟩ := Option.map_eq_some_iff.mp step
      exact isNext ▸ inv.free allowed isLive result
    · exact absurd step (by simp)
  | cleanup w =>
    obtain ⟨after, result, isNext⟩ := Option.map_eq_some_iff.mp step
    exact isNext ▸ inv.cleanup allowed result
  | store block address value =>
    simp only [allocatorStep] at step
    split at step
    · rename_i inBlock
      cases step
      exact inv.store inBlock.1 inBlock.2
    · exact absurd step (by simp)

/-- The allocator keeps its promise under every sequence of calls of which none names a worker after its
cleanup, whatever the program stores into the blocks it holds. -/
theorem frame_malloc_sound {s : FrameAllocator W}
    (run : (allocatorMachine W).GuardedRun NotAfterCleanup s) : ∃ lists, FrameMallocSound s lists := by
  have inv : AllocatorInv s := by
    refine run.invariant ?_ fun s label s' inv allowed step => allocatorInv_step inv allowed step
    rintro s rfl
    exact allocatorInv_initial
  exact inv.sound

/-- One worker allocates, another one frees, and both are cleaned up. -/
theorem frame_malloc_sound_drained :
    ∃ lists, FrameMallocSound
      ((allocatorMachine (Fin 2)).after (FrameAllocator.initial (Fin 2))
        [.malloc 0 2000 [4096], .free 1 ⟨10240, 2000⟩, .cleanup 0, .cleanup 1]) lists :=
  frame_malloc_sound (.after (.start rfl) _ (by decide))

/-- A worker that allocates after its cleanup gets a block that is on a global list, too; the next worker
that fills its list from there hands the same block out again. -/
theorem frame_malloc_unsound_after_cleanup :
    ¬ ∀ s, (allocatorMachine (Fin 2)).Reachable s → ∃ lists, FrameMallocSound s lists := by
  intro always
  obtain ⟨lists, sound⟩ := always _ (.after (.start rfl)
    [.malloc 0 2000 [4096], .cleanup 0, .malloc 0 2000 [], .malloc 1 2000 [], .malloc 1 2000 []])
  have distinct := Multiset.nodup_of_le (Multiset.le_add_right _ _) (nodup_of_apart sound.apart)
  exact absurd (Multiset.coe_nodup.mp distinct) (by decide)

end CilkL
