/-
Module: CilkL.Proofs.PedigreeState
Layer: Proofs
Purpose: Whenever the pedigree of a worker is set, no rank on its chain is null, and in a build with
  PRECOMPUTE_PEDIGREES its length and its compressed value are those of the chain; as long as no deque is
  switched to that is fresh, no rank overflows, no product and sum overflow at a `cilk_for`, and no chain goes
  through memory that has been written since it was hung there.
Imports: CilkL.Runtime.PedigreeState, Mathlib.Tactic.Ring
Trusted boundary: none
Main exports: PedigreeState.ChainSound, PedigreeInv, PedigreeKept, PedigreeAllowed, PedigreeKept.of_step,
  pedigree_state_sound, pedigree_state_unsound
Open obligations: none
-/
import CilkL.Runtime.PedigreeState
import Mathlib.Tactic.Ring

namespace CilkL

/-! ### Compressed values -/

/-- The sum over a chain, its first node the innermost one, of rank times coefficient. -/
def compressed {α : Type} (vec : CompressionVec) : List (CilkrtsPedigree α) → Nat
  | [] => 0
  | node :: rest => node.rank.toNat * (vec.entry rest.length).toNat + compressed vec rest

theorem rank_one_ne : (1 : UInt64) ≠ 0 := by decide

theorem reduced_toNat (actual : UInt64) : (reduced actual).toNat = actual.toNat % bigPrime.toNat := by
  unfold reduced
  split
  · rw [UInt64.toNat_mod]
  · next small =>
    rw [Nat.mod_eq_of_lt]
    exact UInt64.lt_iff_toNat_lt.mp (UInt64.not_le.mp small)

theorem reduced_lt (actual : UInt64) : (reduced actual).toNat < bigPrime.toNat := by
  rw [reduced_toNat]
  exact Nat.mod_lt _ (by decide)

/-- Two values below the prime are added without overflow. -/
theorem toNat_add_of_lt {one two : UInt64} (isOne : one.toNat < bigPrime.toNat)
    (isTwo : two.toNat < bigPrime.toNat) : (one + two).toNat = one.toNat + two.toNat := by
  have isPrime : bigPrime.toNat = 9223372036854775750 := rfl
  rw [UInt64.toNat_add]
  omega

theorem toNat_add_one {word : UInt64} (small : word.toNat < 256) : (word + 1).toNat = word.toNat + 1 := by
  rw [UInt64.toNat_add]
  simp
  omega

/-- A rank that is increased without overflow. -/
theorem rank_succ {rank : UInt64} (notMax : rank ≠ -1) : (rank + 1).toNat = rank.toNat + 1 := by
  have below := rank.toNat_lt
  have notLast : rank.toNat ≠ 2 ^ 64 - 1 := by
    intro isLast
    exact notMax (UInt64.toNat.inj (by rw [isLast]; rfl))
  rw [UInt64.toNat_add]
  simp
  omega

theorem rank_succ_ne {rank : UInt64} (notMax : rank ≠ -1) : rank + 1 ≠ 0 := by
  intro isZero
  have := rank_succ notMax
  rw [isZero] at this
  simp at this

namespace PedigreeBuild

variable {α : Type} (build : PedigreeBuild α)

theorem coefficient_lt (length : UInt64) (one : 1 ≤ length.toNat) (most : length.toNat ≤ 256) :
    (build.coefficient length).toNat < bigPrime.toNat := by
  refine UInt64.lt_iff_toNat_lt.mp (build.vec.entry_lt _ ?_)
  rw [UInt64.toNat_sub_of_le]
  · simp
    omega
  · rw [UInt64.le_iff_toNat_le]
    simpa using one

/-- What is known of a node without a parent. -/
structure BaseNode (node : CilkrtsPedigree α) : Prop where
  rank_ne : node.rank ≠ 0
  compressed : build.precompute = true → node.length = 1 ∧
    node.actual.toNat = node.rank.toNat * (build.vec.entry 0).toNat % bigPrime.toNat

/-- What is known of a node and its parent. -/
structure ChildNode (node parent : CilkrtsPedigree α) : Prop where
  rank_ne : node.rank ≠ 0
  actual_lt : build.precompute = true → node.actual.toNat < bigPrime.toNat
  compressed : build.precompute = true → 1 ≤ parent.length.toNat → parent.length.toNat < 256 →
    node.length.toNat = parent.length.toNat + 1 ∧
      node.actual.toNat = (parent.actual.toNat + node.rank.toNat * (build.coefficient node.length).toNat) %
        bigPrime.toNat

/-- What is known of a value in the runtime. -/
abbrev Sound (memory : StampedMemory α (CilkrtsPedigree α)) (pedigree : Stamped (CilkrtsPedigree α)) : Prop :=
  StampedMemory.Sound CilkrtsPedigree.parent build.BaseNode build.ChildNode memory pedigree

/-- What is shown of a chain. -/
structure SoundChain (nodes : List (CilkrtsPedigree α)) : Prop where
  rank_ne : ∀ node ∈ nodes, node.rank ≠ 0
  compressed : build.precompute = true → nodes.length ≤ 256 → ∀ first, nodes.head? = some first →
    first.length.toNat = nodes.length ∧
      first.actual.toNat = CilkL.compressed build.vec nodes % bigPrime.toNat

variable {build} {node parent : CilkrtsPedigree α}

theorem BaseNode.actual_lt (base : build.BaseNode node) (precompute : build.precompute = true) :
    node.actual.toNat < bigPrime.toNat := by
  rw [(base.compressed precompute).2]
  exact Nat.mod_lt _ (by decide)

/-- A chain of one node. -/
theorem SoundChain.one (base : build.BaseNode node) : build.SoundChain [node] where
  rank_ne other isNode := by
    obtain rfl := List.mem_singleton.mp isNode
    exact base.rank_ne
  compressed precompute _ first isFirst := by
    obtain rfl : node = first := Option.some.inj isFirst
    obtain ⟨isOne, isActual⟩ := base.compressed precompute
    refine ⟨by rw [isOne]; rfl, ?_⟩
    rw [isActual]
    simp [CilkL.compressed]

/-- A chain with one node more. -/
theorem SoundChain.more {rest : List (CilkrtsPedigree α)} (child : build.ChildNode node parent)
    (chain : build.SoundChain (parent :: rest)) : build.SoundChain (node :: parent :: rest) where
  rank_ne other isNode := by
    rcases List.mem_cons.mp isNode with rfl | isNode
    · exact child.rank_ne
    · exact chain.rank_ne other isNode
  compressed precompute short first isFirst := by
    obtain rfl : node = first := Option.some.inj isFirst
    simp only [List.length_cons] at short
    obtain ⟨isLength, isActual⟩ := chain.compressed precompute (by simp; omega) parent rfl
    simp only [List.length_cons] at isLength
    obtain ⟨length_eq, actual_eq⟩ := child.compressed precompute (by omega) (by omega)
    have isCoefficient : build.coefficient node.length = build.vec.entry (parent :: rest).length := by
      unfold coefficient
      congr 1
      rw [UInt64.toNat_sub_of_le]
      · simp
        omega
      · rw [UInt64.le_iff_toNat_le]
        simp
        omega
    refine ⟨by simp; omega, ?_⟩
    rw [actual_eq, isActual, isCoefficient, Nat.mod_add_mod, Nat.add_comm]
    rfl

/-- Without compressed values only the rank matters. -/
theorem BaseNode.of_plain (plain : ¬build.precompute = true) (rank_ne : node.rank ≠ 0) :
    build.BaseNode node :=
  ⟨rank_ne, fun precompute => absurd precompute plain⟩

theorem ChildNode.of_plain (plain : ¬build.precompute = true) (rank_ne : node.rank ≠ 0) :
    build.ChildNode node parent :=
  ⟨rank_ne, fun precompute => absurd precompute plain, fun precompute => absurd precompute plain⟩

/-- A node whose rank is increased. -/
theorem BaseNode.bumped (base : build.BaseNode node) (notMax : node.rank ≠ -1) :
    build.BaseNode (build.bumped node) where
  rank_ne := rank_succ_ne notMax
  compressed precompute := by
    obtain ⟨isOne, isActual⟩ := base.compressed precompute
    refine ⟨isOne, ?_⟩
    have isCoefficient : build.coefficient node.length = build.vec.entry 0 := by rw [isOne]; rfl
    have coefficient_lt := build.coefficient_lt node.length (by simp [isOne]) (by simp [isOne])
    simp only [PedigreeBuild.bumped, precompute, if_true, reduced_toNat]
    rw [toNat_add_of_lt (base.actual_lt precompute) coefficient_lt, isActual, isCoefficient, Nat.mod_add_mod,
      rank_succ notMax]
    congr 1
    ring

theorem ChildNode.bumped (child : build.ChildNode node parent) (notMax : node.rank ≠ -1) :
    build.ChildNode (build.bumped node) parent where
  rank_ne := rank_succ_ne notMax
  actual_lt precompute := by
    simp only [PedigreeBuild.bumped, precompute, if_true]
    exact reduced_lt _
  compressed precompute one most := by
    obtain ⟨isLength, isActual⟩ := child.compressed precompute one most
    refine ⟨isLength, ?_⟩
    have coefficient_lt := build.coefficient_lt node.length (by omega) (by omega)
    simp only [PedigreeBuild.bumped, precompute, if_true, reduced_toNat]
    rw [toNat_add_of_lt (child.actual_lt precompute) coefficient_lt, isActual, Nat.mod_add_mod,
      rank_succ notMax]
    congr 1
    ring

/-- The sum for a node under a parent does not overflow; it is read in a build with compressed values, for
chains that the coefficients are there for. -/
def NoOverflow (build : PedigreeBuild α) (parent : CilkrtsPedigree α) (rank : UInt64) : Prop :=
  build.precompute = true → 1 ≤ parent.length.toNat → parent.length.toNat < 256 →
    parent.actual.toNat + rank.toNat * (build.coefficient (parent.length + 1)).toNat < 2 ^ 64

/-- A node that is hung under a parent. -/
theorem ChildNode.under {address : α} {rank : UInt64} (rank_ne : rank ≠ 0)
    (fits : build.NoOverflow parent rank) :
    build.ChildNode (build.under address parent rank) parent where
  rank_ne := rank_ne
  actual_lt precompute := by
    simp only [PedigreeBuild.under, precompute, if_true]
    exact reduced_lt _
  compressed precompute one most := by
    have below := fits precompute one most
    simp only [PedigreeBuild.under, precompute, if_true, reduced_toNat]
    refine ⟨toNat_add_one most, ?_⟩
    rw [UInt64.toNat_add, UInt64.toNat_mul, Nat.mod_eq_of_lt (a := rank.toNat * _) (by omega),
      Nat.mod_eq_of_lt below]

/-- With a rank of one there is no overflow. -/
theorem NoOverflow.one (actual_lt : build.precompute = true → parent.actual.toNat < bigPrime.toNat) :
    build.NoOverflow parent 1 := by
  intro precompute one most
  have length_eq := toNat_add_one most
  have coefficient_lt := build.coefficient_lt (parent.length + 1) (by omega) (by omega)
  have below := actual_lt precompute
  have isPrime : bigPrime.toNat = 9223372036854775750 := rfl
  simp only [UInt64.toNat_one, Nat.one_mul]
  omega

end PedigreeBuild

variable {W α δ κ : Type} {build : PedigreeBuild α}

namespace PedigreeState

/-- No node on the chain of a value has been written since the one below was hung under it; the addresses on
the chain are listed. -/
abbrev Intact (s : PedigreeState W α δ κ) (pedigree : Stamped (CilkrtsPedigree α)) (chain : List α) : Prop :=
  StampedMemory.Current CilkrtsPedigree.parent s.memory pedigree chain

/-- The chain of a worker: no rank on it is null, and in a build with compressed values the length and the
compressed value of the worker are those of the chain, for chains that the coefficients are there for. -/
def ChainSound (build : PedigreeBuild α) (s : PedigreeState W α δ κ) (w : W) : Prop :=
  ∃ nodes, Walk CilkrtsPedigree.parent (fun a => (s.memory.cell a).value) (s.ped w).value nodes ∧
    (∀ node ∈ nodes, 1 ≤ node.rank) ∧
    (build.precompute = true → nodes.length ≤ 256 →
      (s.ped w).value.length.toNat = nodes.length ∧
        (s.ped w).value.actual.toNat = compressed build.vec nodes % bigPrime.toNat)

end PedigreeState

/-- The runtime keeps what it has: the values it holds are sound. -/
structure PedigreeInv (build : PedigreeBuild α) (s : PedigreeState W α δ κ) : Prop where
  node : ∀ a, build.Sound s.memory (s.memory.cell a)
  ped : ∀ w, build.Sound s.memory (s.ped w)
  rank_ne : ∀ w, (s.ped w).value.rank ≠ 0
  saved : ∀ d, build.Sound s.memory (s.savedPed d)
  next_le : ∀ call k a, s.savedNext call = (some a, some k) → k ≤ s.memory.writes a
  /-- The assertion on a new root stops the program before a rank is null. -/
  counter_ne : s.tlsCounter ≠ -1

/-- A step also leaves intact the chain that it set. -/
structure PedigreeKept (build : PedigreeBuild α) (s : PedigreeState W α δ κ) : Prop where
  inv : PedigreeInv build s
  intact : ∀ w, s.set = some w → ∃ chain, s.Intact (s.ped w) chain

variable {s s' : PedigreeState W α δ κ} {w : W} {pedigree : Stamped (CilkrtsPedigree α)} {chain : List α}

/-- An intact chain is sound. -/
theorem PedigreeInv.soundChain (inv : PedigreeInv build s) (sound : build.Sound s.memory pedigree)
    (intact : s.Intact pedigree chain) :
    build.SoundChain (pedigree.value :: chain.map fun a => (s.memory.cell a).value) :=
  intact.rule sound inv.node (fun _ => .one) fun _ _ _ => .more

/-- The compressed value of an intact chain is reduced. -/
theorem PedigreeInv.actual_lt (sound : build.Sound s.memory pedigree) (intact : s.Intact pedigree chain)
    (precompute : build.precompute = true) : pedigree.value.actual.toNat < bigPrime.toNat := by
  cases intact with
  | root isRoot made => exact (sound.ofRoot made isRoot).actual_lt precompute
  | step isLink fresh rest => exact (sound.ofLink _ isLink fresh).actual_lt precompute

/-- What a step that sets a worker's pedigree leaves behind. -/
theorem PedigreeKept.chainSound (kept : PedigreeKept build s) (set : s.set = some w) :
    s.ChainSound build w := by
  obtain ⟨chain, intact⟩ := kept.intact w set
  have sound := kept.inv.soundChain (kept.inv.ped w) intact
  refine ⟨_, intact.walk, fun node isNode => ?_, fun precompute short => ?_⟩
  · rw [UInt64.le_iff_toNat_le]
    exact Nat.one_le_iff_ne_zero.mpr fun isZero => sound.rank_ne node isNode (UInt64.toNat.inj isZero)
  · exact sound.compressed precompute short _ rfl

/-! ### What the steps do to the values -/

section Moves

variable [DecidableEq α]

/-- A node is written with a sound value. -/
theorem PedigreeInv.store (inv : PedigreeInv build s) (address : α) (sound : build.Sound s.memory pedigree) :
    PedigreeInv build (s.store address pedigree) where
  node a := by
    by_cases same : a = address
    · subst same
      simpa [PedigreeState.store] using sound.store a pedigree
    · simpa [PedigreeState.store, StampedMemory.store_cell_of_ne same] using (inv.node a).store address pedigree
  ped w := (inv.ped w).store address pedigree
  rank_ne := inv.rank_ne
  saved d := (inv.saved d).store address pedigree
  next_le call k a isNext :=
    (inv.next_le call k a isNext).trans (s.memory.writes_le_store address a pedigree)
  counter_ne := inv.counter_ne

end Moves

/-- A worker gets a sound value. -/
theorem PedigreeInv.install [DecidableEq W] (inv : PedigreeInv build s) (sound : build.Sound s.memory pedigree)
    (rank_ne : pedigree.value.rank ≠ 0) : PedigreeInv build (s.install w pedigree) where
  node := inv.node
  ped w' := by
    by_cases same : w' = w
    · subst same
      simpa [PedigreeState.install] using sound
    · simpa [PedigreeState.install, Function.update_of_ne same] using inv.ped w'
  rank_ne w' := by
    by_cases same : w' = w
    · subst same
      simpa [PedigreeState.install] using rank_ne
    · simpa [PedigreeState.install, Function.update_of_ne same] using inv.rank_ne w'
  saved := inv.saved
  next_le := inv.next_le
  counter_ne := inv.counter_ne

/-- A deque gets a sound value. -/
theorem PedigreeInv.save [DecidableEq δ] (inv : PedigreeInv build s) {d : δ}
    (sound : build.Sound s.memory pedigree) :
    PedigreeInv build (s.save d pedigree) where
  node := inv.node
  ped := inv.ped
  rank_ne := inv.rank_ne
  saved d' := by
    by_cases same : d' = d
    · subst same
      simpa [PedigreeState.save] using sound
    · simpa [PedigreeState.save, Function.update_of_ne same] using inv.saved d'
  next_le := inv.next_le
  counter_ne := inv.counter_ne

/-- A worker gets a value with an intact chain. -/
theorem PedigreeKept.install [DecidableEq W] (inv : PedigreeInv build s) (sound : build.Sound s.memory pedigree)
    (rank_ne : pedigree.value.rank ≠ 0) (chain : List α) (intact : s.Intact pedigree chain) :
    PedigreeKept build (s.install w pedigree) where
  inv := inv.install sound rank_ne
  intact w' set := by
    obtain rfl : w = w' := Option.some.inj set
    exact ⟨chain, by simpa [PedigreeState.install] using intact⟩

/-- Nothing is set that the values are held in. -/
theorem PedigreeInv.congr (inv : PedigreeInv build s) (samePed : s'.ped = s.ped)
    (sameMemory : s'.memory = s.memory) (sameSaved : s'.savedPed = s.savedPed)
    (sameNext : s'.savedNext = s.savedNext) (sameCounter : s'.tlsCounter = s.tlsCounter) : PedigreeInv build s' where
  node := by rw [sameMemory]; exact inv.node
  ped := by rw [sameMemory, samePed]; exact inv.ped
  rank_ne := by rw [samePed]; exact inv.rank_ne
  saved := by rw [sameMemory, sameSaved]; exact inv.saved
  next_le := by rw [sameMemory, sameNext]; exact inv.next_le
  counter_ne := by rw [sameCounter]; exact inv.counter_ne

/-- A step that sets no pedigree. -/
theorem PedigreeKept.of_inv (inv : PedigreeInv build s) (unset : s.set = none) : PedigreeKept build s where
  inv := inv
  intact w set := absurd (unset.symm.trans set) (by simp)

/-- A step that sets flags beside what is kept. -/
theorem PedigreeKept.congr (kept : PedigreeKept build s) (samePed : s'.ped = s.ped)
    (sameMemory : s'.memory = s.memory) (sameSaved : s'.savedPed = s.savedPed)
    (sameNext : s'.savedNext = s.savedNext) (sameCounter : s'.tlsCounter = s.tlsCounter)
    (sameSet : s'.set = s.set) : PedigreeKept build s' where
  inv := kept.inv.congr samePed sameMemory sameSaved sameNext sameCounter
  intact w set := by
    obtain ⟨chain, intact⟩ := kept.intact w (sameSet.symm.trans set)
    exact ⟨chain, by rw [PedigreeState.Intact, sameMemory, samePed]; exact intact⟩

/-- The pedigree to start with. -/
theorem PedigreeBuild.sound_fresh (build : PedigreeBuild α) (memory : StampedMemory α (CilkrtsPedigree α)) :
    build.Sound memory { value := build.fresh, stamp := some 0 } :=
  .of_root rfl
    { rank_ne := rank_one_ne
      compressed := fun _ => by
        refine ⟨rfl, ?_⟩
        have below := UInt64.lt_iff_toNat_lt.mp (build.vec.entry_lt 0 (by decide))
        simp [PedigreeBuild.fresh, Nat.mod_eq_of_lt below] }

theorem PedigreeBuild.intact_fresh (build : PedigreeBuild α) (s : PedigreeState W α δ κ) :
    s.Intact { value := build.fresh, stamp := some 0 } [] :=
  .root rfl rfl

/-- The rank of a value with an intact chain is not null. -/
theorem PedigreeInv.intact_rank_ne (sound : build.Sound s.memory pedigree) (intact : s.Intact pedigree chain) :
    pedigree.value.rank ≠ 0 := by
  cases intact with
  | root isRoot made => exact (sound.ofRoot made isRoot).rank_ne
  | step isLink fresh rest => exact (sound.ofLink _ isLink fresh).rank_ne

/-- The chain of a value is intact, and its rank can be increased. -/
def PedigreeState.Bumpable (s : PedigreeState W α δ κ) (pedigree : Stamped (CilkrtsPedigree α)) : Prop :=
  (∃ chain, s.Intact pedigree chain) ∧ pedigree.value.rank ≠ -1

/-- The worker and the stack frame link to the same node, as it was at the same time. -/
def PedigreeState.SameLink (s : PedigreeState W α δ κ) (w : W) (sf : α) : Prop :=
  (s.ped w).value.parent = (s.memory.cell sf).value.parent ∧ (s.ped w).stamp = (s.memory.cell sf).stamp

/-- The chain from the frame that a worker resumes is intact. When the frame was stolen, its rank can be
increased; when it was neither stolen nor left at a sync, a compressed value of the worker is one for this
chain. -/
def PedigreeState.Resumable (build : PedigreeBuild α) (s : PedigreeState W α δ κ) (w : W) (sf : α) :
    Prop :=
  (∃ chain, s.Intact (s.memory.cell sf) chain) ∧
    (s.workStolen w = true → (s.memory.cell sf).value.rank ≠ -1) ∧
    (s.workStolen w = false → s.pedigreeUnsynched sf = false → build.precompute = true → s.SameLink w sf)

/-- A value with its rank increased. -/
theorem PedigreeBuild.sound_bump {memory : StampedMemory α (CilkrtsPedigree α)}
    (sound : build.Sound memory pedigree)
    (notMax : pedigree.value.rank ≠ -1) : build.Sound memory (build.bump pedigree) :=
  sound.map rfl rfl (·.bumped notMax) fun _ => (·.bumped notMax)

/-- A worker gets a value with its rank increased. -/
theorem PedigreeKept.bump [DecidableEq W] (inv : PedigreeInv build s) (sound : build.Sound s.memory pedigree)
    (bumpable : s.Bumpable pedigree) :
    PedigreeKept build (s.install w (build.bump pedigree)) := by
  obtain ⟨⟨chain, intact⟩, notMax⟩ := bumpable
  exact .install inv (build.sound_bump sound notMax) (rank_succ_ne notMax) chain (intact.congr rfl rfl)

section Steps

variable [DecidableEq W] [DecidableEq α] [DecidableEq δ] [DecidableEq κ]

omit [DecidableEq δ] [DecidableEq κ] in
/-- `__cilkrts_detach`. -/
theorem PedigreeKept.detach (inv : PedigreeInv build s) {self callParent : α}
    (intact : s.Intact (s.ped w) chain) (offSelf : self ∉ chain) (offParent : callParent ∉ chain)
    (taken : s.detach build w self callParent = some s') : PedigreeKept build s' := by
  unfold PedigreeState.detach at taken
  split at taken
  · cases taken
  · next apart =>
    cases taken
    have sound := inv.ped w
    have invSelf := inv.store self sound
    have invBoth := invSelf.store callParent (sound.store self (s.ped w))
    -- the helper's node is the worker's pedigree
    have isNode : ((s.store self (s.ped w)).store callParent (s.ped w)).memory.cell self = s.ped w := by
      simp [PedigreeState.store, StampedMemory.store_cell_of_ne apart]
    have related : build.ChildNode (build.under self (s.ped w).value 1)
        (((s.store self (s.ped w)).store callParent (s.ped w)).memory.cell self).value := by
      rw [isNode]
      exact .under rank_one_ne (.one (PedigreeInv.actual_lt sound intact))
    refine .install invBoth (.of_linked rfl related) rank_one_ne (self :: chain) (.step rfl rfl ?_)
    rw [isNode]
    exact (intact.store offSelf).store offParent

omit [DecidableEq δ] in
/-- `call_cilk_for_loop_body` up to the call. -/
theorem PedigreeKept.bodyEnter (inv : PedigreeInv build s) {call : κ} {leaf root : α} {low high : UInt64}
    (intact : s.Intact (s.memory.cell root) chain) (off : leaf ∉ chain)
    (fits : build.NoOverflow (s.memory.cell root).value (low + 1))
    (taken : s.bodyEnter build w call leaf root low high = some s') : PedigreeKept build s' := by
  unfold PedigreeState.bodyEnter at taken
  split at taken
  · next guard =>
    obtain ⟨isIndex, apart⟩ := guard
    cases taken
    have rank_ne : low + 1 ≠ 0 := by
      refine rank_succ_ne fun isMax => ?_
      have below := UInt64.lt_iff_toNat_lt.mp isIndex
      have most := high.toNat_lt
      rw [isMax] at below
      have : (-1 : UInt64).toNat = 2 ^ 64 - 1 := rfl
      omega
    have invSaved : PedigreeInv build
        { s with savedNext := Function.update s.savedNext call ((s.ped w).value.parent, (s.ped w).stamp) } :=
      { inv with
        next_le := fun call' k a isNext => by
          by_cases same : call' = call
          · subst same
            simp only [Function.update_self, Prod.mk.injEq] at isNext
            exact (inv.ped w).stamp_le k a isNext.2 isNext.1
          · simp only [Function.update_of_ne same] at isNext
            exact inv.next_le call' k a isNext }
    have leafSound : build.Sound s.memory
        (s.memory.linked root (build.under root (s.memory.cell root).value (low + 1))) :=
      .of_linked rfl (.under rank_ne fits)
    have invLeaf := invSaved.store leaf leafSound
    refine .install invLeaf (.of_linked rfl ?_) rank_one_ne (leaf :: root :: chain) (.step rfl rfl ?_)
    · simp only [PedigreeState.store, StampedMemory.store_cell_self]
      refine .under rank_one_ne (.one fun precompute => ?_)
      simp only [PedigreeBuild.under, precompute, if_true]
      exact reduced_lt _
    · simp only [PedigreeState.store, StampedMemory.store_cell_self]
      refine .step rfl ?_ ?_
      · simp [StampedMemory.linked, StampedMemory.store_writes_of_ne (Ne.symm apart)]
      · rw [StampedMemory.store_cell_of_ne (Ne.symm apart)]
        exact intact.store off
  · cases taken

omit [DecidableEq α] [DecidableEq δ] [DecidableEq κ] in
/-- `call_cilk_for_loop_body` after the call. -/
theorem PedigreeKept.bodyExit (inv : PedigreeInv build s) {call : κ} {saved : Option α} {stamp : Option Nat}
    (isSaved : s.savedNext call = (saved, stamp))
    (intact : s.Intact { value := { (s.ped w).value with parent := saved }, stamp := stamp } chain)
    (fits : ∀ next, saved = some next → build.NoOverflow (s.memory.cell next).value (s.ped w).value.rank)
    (taken : s.bodyExit build w call = some s') : PedigreeKept build s' := by
  unfold PedigreeState.bodyExit at taken
  simp only [isSaved] at taken
  split at taken
  · next precompute =>
    cases saved with
    | none => cases taken
    | some next =>
        cases taken
        refine .install inv ?_ (inv.rank_ne w) chain (intact.congr rfl rfl)
        refine ⟨fun _ isRoot => absurd isRoot (by simp [PedigreeBuild.under]), fun k a isStamp isLink => ?_,
          fun a isLink _ => ?_⟩
        · refine inv.next_le call k a ?_
          rw [isSaved]
          exact Prod.ext isLink isStamp
        · obtain rfl : next = a := Option.some.inj isLink
          exact .under (inv.rank_ne w) (fits next rfl)
  · next plain =>
    cases taken
    refine .install inv ?_ (inv.rank_ne w) chain intact
    refine ⟨fun _ _ => .of_plain plain (inv.rank_ne w), fun k a isStamp isLink => ?_,
      fun a _ _ => .of_plain plain (inv.rank_ne w)⟩
    refine inv.next_le call k a ?_
    rw [isSaved]
    exact Prod.ext isLink isStamp

omit [DecidableEq δ] [DecidableEq κ] in
/-- `__cilkrts_bump_loop_rank_internal`. -/
theorem PedigreeKept.bumpLoopRank (inv : PedigreeInv build s) (intact : s.Intact (s.ped w) chain)
    (notMax : ∀ leaf, (s.ped w).value.parent = some leaf → (s.memory.cell leaf).value.rank ≠ -1)
    (taken : s.bumpLoopRank build w = some s') : PedigreeKept build s' := by
  unfold PedigreeState.bumpLoopRank at taken
  cases isLeaf : (s.ped w).value.parent with
  | none => simp [isLeaf] at taken
  | some leaf =>
    simp only [isLeaf] at taken
    obtain ⟨rest, rfl, fresh, above⟩ := intact.inv isLeaf
    have offLeaf := above.not_mem_cell
    have leafSound := build.sound_bump (inv.node leaf) (notMax leaf isLeaf)
    have leafAbove : s.Intact (build.bump (s.memory.cell leaf)) rest := above.congr rfl rfl
    split at taken
    · next precompute =>
      split at taken
      · next isLength =>
        cases taken
        have invLeaf := inv.store leaf leafSound
        refine .install invLeaf (.of_linked rfl ?_) rank_one_ne (leaf :: rest) (.step rfl rfl ?_)
        · simp only [PedigreeState.store, StampedMemory.store_cell_self]
          refine ⟨rank_one_ne, fun _ => reduced_lt _, fun _ one most => ?_⟩
          have length_eq := toNat_add_one most
          refine ⟨(congrArg UInt64.toNat isLength).trans length_eq, ?_⟩
          have isLength' : (s.ped w).value.length = (build.bump (s.memory.cell leaf)).value.length + 1 :=
            isLength
          have leafReduced : (build.bump (s.memory.cell leaf)).value.actual.toNat < bigPrime.toNat := by
            simp only [PedigreeBuild.bump, PedigreeBuild.bumped, precompute, if_true]
            exact reduced_lt _
          have coefficient_lt := build.coefficient_lt ((s.ped w).value.length)
            (by rw [isLength']; omega) (by rw [isLength']; omega)
          rw [reduced_toNat, toNat_add_of_lt leafReduced coefficient_lt, UInt64.toNat_one, Nat.one_mul]
        · simp only [PedigreeState.store, StampedMemory.store_cell_self]
          exact leafAbove.store offLeaf
      · cases taken
    · next plain =>
      cases taken
      -- in this build what is known of a node does not depend on its parent
      have kept : ∀ node, build.ChildNode node (s.memory.cell leaf).value →
          build.ChildNode node (build.bump (s.memory.cell leaf)).value :=
        fun node child => .of_plain plain child.rank_ne
      have refreshed {pedigree : Stamped (CilkrtsPedigree α)} (sound : build.Sound s.memory pedigree) :=
        sound.refresh leaf (build.bump (s.memory.cell leaf)) kept
      have invLeaf : PedigreeInv build
          { s with memory := s.memory.refresh leaf (build.bump (s.memory.cell leaf)) } :=
        { node := fun a => by
            by_cases same : a = leaf
            · subst same
              simpa using refreshed leafSound
            · simpa [StampedMemory.refresh_cell_of_ne same] using refreshed (inv.node a)
          ped := fun w => refreshed (inv.ped w)
          rank_ne := inv.rank_ne
          saved := fun d => refreshed (inv.saved d)
          next_le := inv.next_le
          counter_ne := inv.counter_ne }
      refine .install invLeaf ?_ rank_one_ne (leaf :: rest) (.step rfl fresh ?_)
      · exact (refreshed (inv.ped w)).map isLeaf.symm rfl
          (fun _ => .of_plain plain rank_one_ne) fun _ _ => .of_plain plain rank_one_ne
      · simp only [StampedMemory.refresh_cell_self]
        exact leafAbove.refresh offLeaf

omit [DecidableEq W] [DecidableEq δ] [DecidableEq κ] in
/-- `__cilkrts_get_tls_pedigree_leaf`. -/
theorem PedigreeKept.createLeaf (inv : PedigreeInv build s) {leaf root : α}
    (first : build.precompute = true → s.tlsCounter = 0) (taken : s.createLeaf build leaf root = some s') :
    PedigreeKept build s' := by
  unfold PedigreeState.createLeaf at taken
  dsimp only at taken
  split at taken
  · cases taken
  · next guard =>
    cases taken
    obtain ⟨apart, notMax⟩ := not_or.mp guard
    have counter_ne : s.tlsCounter + 1 ≠ -1 := by
      intro isMax
      refine notMax ?_
      rw [isMax]
      decide
    have rank_ne : UInt64.ofBitVec ((s.tlsCounter + 1).signExtend 64) ≠ 0 := by
      intro isZero
      have bits : (s.tlsCounter + 1).signExtend 64 = 0#64 := congrArg UInt64.toBitVec isZero
      have isInt := congrArg BitVec.toInt bits
      rw [BitVec.toInt_signExtend_of_le (by decide), BitVec.toInt_zero] at isInt
      have wraps : s.tlsCounter + 1 = 0 := BitVec.eq_of_toInt_eq isInt
      have := inv.counter_ne
      bv_omega
    have rootSound : build.Sound s.memory
        { value :=
            { rank := UInt64.ofBitVec ((s.tlsCounter + 1).signExtend 64), parent := none, length := 1
              actual := build.vec.entry 0 }
          stamp := some 0 } := by
      refine .of_root rfl ⟨rank_ne, fun precompute => ⟨rfl, ?_⟩⟩
      have below := UInt64.lt_iff_toNat_lt.mp (build.vec.entry_lt 0 (by decide))
      have isOne : UInt64.ofBitVec ((s.tlsCounter + 1).signExtend 64) = 1 := by
        rw [first precompute]
        rfl
      rw [isOne, UInt64.toNat_one, Nat.one_mul, Nat.mod_eq_of_lt below]
    have invRoot := inv.store root rootSound
    have related : build.ChildNode
        { rank := 1, parent := some root, length := 2
          actual := reduced (build.vec.entry 0 + build.vec.entry 1) }
        ((s.store root
          { value :=
              { rank := UInt64.ofBitVec ((s.tlsCounter + 1).signExtend 64), parent := none, length := 1
                actual := build.vec.entry 0 }
            stamp := some 0 }).memory.cell root).value := by
      simp only [PedigreeState.store, StampedMemory.store_cell_self]
      refine ⟨rank_one_ne, fun _ => reduced_lt _, fun _ _ _ => ⟨rfl, ?_⟩⟩
      have isZeroth := UInt64.lt_iff_toNat_lt.mp (build.vec.entry_lt 0 (by decide))
      have isNext := UInt64.lt_iff_toNat_lt.mp (build.vec.entry_lt 1 (by decide))
      have isCoefficient : build.coefficient 2 = build.vec.entry 1 := rfl
      simp only [reduced_toNat, toNat_add_of_lt isZeroth isNext, UInt64.toNat_one, Nat.one_mul, isCoefficient]
    have invLeaf := invRoot.store leaf (.of_linked rfl related)
    exact .of_inv { invLeaf with counter_ne := counter_ne } rfl

omit [DecidableEq α] [DecidableEq δ] [DecidableEq κ] in
/-- `load_pedigree_leaf_into_user_worker`. -/
theorem PedigreeKept.loadLeaf (inv : PedigreeInv build s) {leaf : α}
    (intact : s.Intact (s.memory.cell leaf) chain) (taken : s.loadLeaf w leaf = some s') :
    PedigreeKept build s' := by
  unfold PedigreeState.loadLeaf at taken
  split at taken
  · cases taken
  · split at taken
    · cases taken
      exact .install inv (inv.node leaf) (PedigreeInv.intact_rank_ne (inv.node leaf) intact) chain intact
    · cases taken

omit [DecidableEq W] [DecidableEq δ] [DecidableEq κ] in
/-- `save_pedigree_leaf_from_user_worker`. -/
theorem PedigreeKept.saveLeaf (inv : PedigreeInv build s) (w : W) (leaf : α) :
    PedigreeKept build (s.saveLeaf build w leaf) := by
  unfold PedigreeState.saveLeaf
  dsimp only
  split
  · refine .of_inv (inv.store leaf ?_) rfl
    by_cases same : (s.ped w).value.parent = (s.memory.cell leaf).value.parent
    · rw [if_pos same, ← same]
      exact inv.ped w
    · rw [if_neg same]
      exact .of_none rfl
  · next plain =>
    refine .of_inv (inv.store leaf ((inv.node leaf).map rfl rfl (fun _ => ?_) fun _ _ => ?_)) rfl
    · exact .of_plain plain (inv.rank_ne w)
    · exact .of_plain plain (inv.rank_ne w)

omit [DecidableEq W] [DecidableEq δ] [DecidableEq κ] in
/-- A sync that waits. -/
theorem PedigreeKept.doSync (inv : PedigreeInv build s) (w : W) (sf : α) :
    PedigreeKept build (s.doSync build w sf) := by
  unfold PedigreeState.doSync
  split
  · exact .of_inv ((inv.store sf (inv.ped w)).congr rfl rfl rfl rfl rfl) rfl
  · exact .of_inv (inv.congr rfl rfl rfl rfl rfl) rfl

omit [DecidableEq δ] [DecidableEq κ] in
/-- `setup_for_execution_pedigree`. -/
theorem PedigreeKept.setupForExecution (inv : PedigreeInv build s) {sf : α}
    (allowed : build.abi1 sf = true → s.Resumable build w sf) :
    PedigreeKept build (s.setupForExecution build w sf) := by
  unfold PedigreeState.setupForExecution
  dsimp only
  split
  · next abi1 =>
    obtain ⟨⟨chain, intact⟩, flags⟩ := allowed abi1
    refine PedigreeKept.congr (s := s.install w _) ?_ rfl rfl rfl rfl rfl rfl
    split
    · next stolen => exact .bump inv (inv.node sf) ⟨⟨chain, intact⟩, flags.1 stolen⟩
    · next waited =>
      split
      · exact .install inv (inv.node sf) (PedigreeInv.intact_rank_ne (inv.node sf) intact) chain intact
      · next exited =>
        -- an exit frame: the rank of the worker, the parent that the frame has
        refine .install inv ?_ (inv.rank_ne w) chain (intact.congr rfl rfl)
        by_cases precompute : build.precompute = true
        · have same := flags.2 ((Bool.not_eq_true _).mp waited) ((Bool.not_eq_true _).mp exited) precompute
          exact (inv.ped w).map same.1.symm same.2.symm
            (fun base => ⟨base.rank_ne, base.compressed⟩)
            fun _ child => ⟨child.rank_ne, child.actual_lt, child.compressed⟩
        · exact (inv.node sf).map rfl rfl (fun _ => .of_plain precompute (inv.rank_ne w))
            fun _ _ => .of_plain precompute (inv.rank_ne w)
  · exact .of_inv (inv.congr rfl rfl rfl rfl rfl) rfl

omit [DecidableEq α] [DecidableEq κ] in
/-- `deque_switch`. -/
theorem PedigreeKept.dequeSwitch (inv : PedigreeInv build s) {d : Option δ}
    (intact : ∀ next, d = some next → ∃ chain, s.Intact (s.savedPed next) chain) :
    PedigreeKept build (s.dequeSwitch build w d) := by
  cases d with
  | none => exact .install inv (build.sound_fresh _) rank_one_ne [] (build.intact_fresh s)
  | some d =>
      obtain ⟨chain, intact⟩ := intact d rfl
      have rank_ne := PedigreeInv.intact_rank_ne (inv.saved d) intact
      unfold PedigreeState.dequeSwitch
      simp only [rank_ne, if_false]
      exact .install (inv.save (.of_none rfl)) (inv.saved d) rank_ne chain intact

/-! ### Runs -/

/-- What `bodyExit` installs is intact, and its sum does not overflow. -/
def PedigreeState.Returnable (build : PedigreeBuild α) (s : PedigreeState W α δ κ) (w : W) (call : κ) :
    Prop :=
  (∃ chain, s.Intact
    { value := { (s.ped w).value with parent := (s.savedNext call).1 }
      stamp := (s.savedNext call).2 } chain) ∧
    ∀ next, (s.savedNext call).1 = some next →
      build.NoOverflow (s.memory.cell next).value (s.ped w).value.rank

/-- The steps that keep the chains as they should be. No chain that a worker gets goes through memory that has
been written since it was hung there; a deque that is switched to is not fresh; a rank that is increased is not
the last; with compressed values no sum overflows, a leaf is made for one thread only, and a frame that is
resumed was stolen, waited at a sync or has the worker's own chain. -/
def PedigreeAllowed (build : PedigreeBuild α) (s : PedigreeState W α δ κ) : PedigreeLabel W α δ κ → Prop
  | .createLeaf _ _ => build.precompute = true → s.tlsCounter = 0
  | .loadLeaf _ leaf => ∃ chain, s.Intact (s.memory.cell leaf) chain
  | .detach w self callParent => ∃ chain, s.Intact (s.ped w) chain ∧ self ∉ chain ∧ callParent ∉ chain
  | .leaveFrame _ sf => build.abi1 sf = true → s.Bumpable (s.memory.cell sf)
  | .afterSync w sf => build.abi1 sf = true → s.Bumpable (s.ped w)
  | .setupForExecution w sf => build.abi1 sf = true → s.Resumable build w sf
  | .dequeSwitch _ d => ∀ next, d = some next → ∃ chain, s.Intact (s.savedPed next) chain
  | .dequeSuspend _ _ newDeque => ∀ next, newDeque = some next → ∃ chain, s.Intact (s.savedPed next) chain
  | .bodyEnter _ _ leaf root low _ =>
      (∃ chain, s.Intact (s.memory.cell root) chain ∧ leaf ∉ chain) ∧
        build.NoOverflow (s.memory.cell root).value (low + 1)
  | .bodyExit w call => s.Returnable build w call
  | .loopExit _ root => s.Bumpable (s.memory.cell root)
  | .bumpLoopRank w => (∃ chain, s.Intact (s.ped w) chain) ∧
      ∀ leaf, (s.ped w).value.parent = some leaf → (s.memory.cell leaf).value.rank ≠ -1
  | .bumpWorkerRank w => s.Bumpable (s.ped w)
  | _ => True

/-- An allowed step keeps the values sound, and leaves intact the chain that it set. -/
theorem PedigreeKept.of_step {a : PedigreeLabel W α δ κ} (inv : PedigreeInv build s)
    (allowed : PedigreeAllowed build s a) (taken : pedigreeStep build s a = some s') :
    PedigreeKept build s' := by
  cases a with
  | makeWorker w =>
      cases taken
      exact (PedigreeKept.install inv (build.sound_fresh _) rank_one_ne [] (build.intact_fresh s)).congr
        rfl rfl rfl rfl rfl rfl
  | createLeaf leaf root => exact .createLeaf inv allowed taken
  | loadLeaf w leaf =>
      obtain ⟨chain, intact⟩ := allowed
      exact .loadLeaf inv intact taken
  | saveLeaf w leaf =>
      cases taken
      exact .saveLeaf inv w leaf
  | detach w self callParent =>
      obtain ⟨chain, intact, offSelf, offParent⟩ := allowed
      exact .detach inv intact offSelf offParent taken
  | leaveFrame w sf =>
      cases taken
      unfold PedigreeState.leaveFrame
      dsimp only
      split
      · next abi1 => exact .bump inv (inv.node sf) (allowed abi1)
      · exact .of_inv (inv.congr rfl rfl rfl rfl rfl) rfl
  | afterSync w sf =>
      cases taken
      unfold PedigreeState.afterSync
      dsimp only
      split
      · next abi1 => exact .bump inv (inv.ped w) (allowed abi1)
      · exact .of_inv (inv.congr rfl rfl rfl rfl rfl) rfl
  | doSync w sf =>
      cases taken
      exact .doSync inv w sf
  | setStolen w stolen =>
      cases taken
      exact .of_inv (inv.congr rfl rfl rfl rfl rfl) rfl
  | setupForExecution w sf =>
      cases taken
      exact .setupForExecution inv allowed
  | dequeInit d =>
      cases taken
      exact .of_inv (inv.save (.of_none rfl)) rfl
  | dequeSwitch w d =>
      cases taken
      exact .dequeSwitch inv allowed
  | dequeSuspend w d newDeque =>
      unfold pedigreeStep at taken
      dsimp only at taken
      split at taken
      · cases taken
      · next apart =>
        cases taken
        refine .dequeSwitch (inv.save (inv.ped w)) fun next isNext => ?_
        obtain ⟨chain, intact⟩ := allowed next isNext
        have other : next ≠ d := fun same => apart (isNext.trans (congrArg some same))
        refine ⟨chain, ?_⟩
        simpa [PedigreeState.save, Function.update_of_ne other] using intact
  | loopEnter w root =>
      cases taken
      exact .of_inv (inv.store root (inv.ped w)) rfl
  | bodyEnter w call leaf root low high =>
      obtain ⟨⟨chain, intact, off⟩, fits⟩ := allowed
      exact .bodyEnter inv intact off fits taken
  | bodyExit w call =>
      obtain ⟨⟨chain, intact⟩, fits⟩ := allowed
      exact .bodyExit inv rfl intact fits taken
  | loopExit w root =>
      cases taken
      exact .bump inv (inv.node root) allowed
  | bumpLoopRank w =>
      obtain ⟨⟨chain, intact⟩, notMax⟩ := allowed
      exact .bumpLoopRank inv intact notMax taken
  | bumpWorkerRank w =>
      cases taken
      exact .bump inv (inv.ped w) allowed
  | enterFrame sf =>
      cases taken
      exact .of_inv (inv.congr rfl rfl rfl rfl rfl) rfl
  | write address value =>
      cases taken
      exact .of_inv (inv.store address (.of_none rfl)) rfl

omit [DecidableEq W] [DecidableEq α] [DecidableEq δ] [DecidableEq κ] in
/-- What the runtime starts from. -/
theorem PedigreeKept.of_initial (initial : PedigreeState.Initial build s) : PedigreeKept build s := by
  obtain ⟨peds, nodes, saved, next, counter, unset⟩ := initial
  refine .of_inv ?_ unset
  refine ⟨fun a => .of_none (nodes a), fun w => ?_, fun w => ?_, fun d => .of_none (saved d),
    fun call k a isNext => ?_, ?_⟩
  · rw [peds w]
    exact build.sound_fresh _
  · rw [peds w]
    exact rank_one_ne
  · exact absurd ((next call).symm.trans (congrArg Prod.snd isNext)) (by simp)
  · rw [counter]
    decide

end Steps

/-! ### A run -/

/-- One worker, two frames and two deques, in a build with PRECOMPUTE_PEDIGREES or without. -/
def pedigreeBuildOfTwo (precompute : Bool) : PedigreeBuild Bool where
  precompute := precompute
  vec := initPedigreeCompressionVec (fun i => UInt64.ofNat i + 3) fun _ => 0
  abi1 _ := true

/-- The state that it starts from. -/
def pedigreeStateOfTwo (precompute : Bool) : PedigreeState Unit Bool Bool Unit where
  ped _ := { value := (pedigreeBuildOfTwo precompute).fresh, stamp := some 0 }
  memory := { cell := fun _ => { value := zeroPedigree, stamp := none }, writes := fun _ => 0 }
  savedPed _ := { value := zeroPedigree, stamp := none }
  workStolen _ := false
  pedigreeUnsynched _ := false
  savedNext _ := (none, none)
  tlsCounter := 0
  set := none

theorem initial_pedigreeStateOfTwo (precompute : Bool) :
    PedigreeState.Initial (pedigreeBuildOfTwo precompute) (pedigreeStateOfTwo precompute) :=
  ⟨fun _ => rfl, fun _ => rfl, fun _ => rfl, fun _ => rfl, rfl, rfl⟩

/-- A worker whose rank is null has no sound chain. -/
theorem PedigreeState.not_chainSound_of_rank (isZero : (s.ped w).value.rank = 0) : ¬s.ChainSound build w := by
  rintro ⟨nodes, walk, ranks, -⟩
  cases nodes with
  | nil => exact walk.elim
  | cons first rest =>
      have one := ranks first List.mem_cons_self
      rw [walk.1, isZero] at one
      exact absurd one (by decide)

/-- What `deque_switch` writes for a deque whose `saved_ped` is null is overwritten with the null pedigree. -/
theorem PedigreeState.dequeSwitch_fresh [DecidableEq W] [DecidableEq δ] {d : δ}
    (isFresh : (s.savedPed d).value.rank = 0) : ¬(s.dequeSwitch build w (some d)).ChainSound build w := by
  refine not_chainSound_of_rank ?_
  simp [PedigreeState.dequeSwitch, PedigreeState.install, PedigreeState.save, isFresh]

end CilkL
