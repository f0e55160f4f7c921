/-
Module: CilkL.Proofs.ActiveWorkers
Layer: Proofs
Purpose: `active_workers` counts the strands that have not terminated, so the exit frame is pushed once,
  by the worker that takes the last strand off the counter, and no assertion about the termination fails.
  Until the initial frame has returned, its strand or that of a function it called counts as well.
Imports: CilkL.Proofs.SpawnTree, CilkL.Runtime.ActiveWorkers
Trusted boundary: none (fully proved)
Main exports: StrandMove, DequeOk, ActiveInv, ActiveInv.of_step, active_workers_exact
Open obligations: none
-/
import CilkL.Proofs.SpawnTree
import CilkL.Runtime.ActiveWorkers
import Mathlib.Algebra.BigOperators.Group.Finset.Basic
import Mathlib.Algebra.BigOperators.Group.Finset.Piecewise
import Mathlib.Algebra.Order.BigOperators.Group.Finset

namespace CilkL

open SpawnTree

/-! ### What a step does to the strands -/

/-- How the strand of one frame changes in a step that is not a steal. -/
inductive StrandMove : TreeLabel → Nat → TreeFrame → FrameStrand → Prop where
  | invoke {f : Nat} {link : SpawnLink} {callers : List SpawnLink} {ff : TreeFrame}
      (strand : ff.strand = .running callers) :
      StrandMove (.invoke f link) f ff (.running (link :: callers))
  | leave {f : Nat} {link : SpawnLink} {callers : List SpawnLink} {ff : TreeFrame}
      (strand : ff.strand = .running (link :: callers)) : StrandMove (.leave f) f ff (.running callers)
  | resume {f : Nat} {ff : TreeFrame} (strand : ff.strand = .next) :
      StrandMove (.resume f) f ff (.running [])
  | sync {f : Nat} {ff : TreeFrame} (strand : ff.strand = .running []) :
      StrandMove (.sync f) f ff .syncing
  | stall {f : Nat} {ff : TreeFrame} (strand : ff.strand = .syncing) :
      StrandMove (.doSync f) f ff .stalled
  | cross {label : TreeLabel} {f : Nat} {ff : TreeFrame}
      (strand : ff.strand = .syncing ∨ ff.strand = .stalled)
      (arrival : label = .doSync f ∨ ∃ c, label = .decjoinParent c) : StrandMove label f ff .next
  | spawnReturn {f : Nat} {ff : TreeFrame} (strand : ff.strand = .running [])
      (isSpawn : ff.isCallChild = false) (notRoot : f ≠ 0) : StrandMove (.spawnReturn f) f ff .unlinked
  | leaveParent {f : Nat} {ff : TreeFrame} {strand' : FrameStrand} (strand : ff.strand = .unlinked)
      (left : strand' = .leaving ∨ strand' = .dead) : StrandMove (.decjoinSelf f) f ff strand'
  | destroy {f : Nat} {ff : TreeFrame} (strand : ff.strand = .leaving) :
      StrandMove (.decjoinParent f) f ff .dead
  | callReturn {f : Nat} {ff : TreeFrame} (strand : ff.strand = .running [])
      (isCall : ff.isCallChild = true) : StrandMove (.callReturn f) f ff .disowned
  | splice {f : Nat} {ff : TreeFrame} (strand : ff.strand = .disowned) :
      StrandMove (.finalizeCall f) f ff .dead
  | goOn {c f : Nat} {ff : TreeFrame} (strand : ff.strand = .waiting) :
      StrandMove (.finalizeCall c) f ff .next

/-- The frames of the two trees have the same places in it. -/
structure SameKinds (t t' : SpawnTree) : Prop where
  frames : t'.frames = t.frames
  parent : ∀ g, (t'.frame g).parent = (t.frame g).parent
  isCallChild : ∀ g, (t'.frame g).isCallChild = (t.frame g).isCallChild

theorem SameKinds.refl (t : SpawnTree) : SameKinds t t := ⟨rfl, fun _ => rfl, fun _ => rfl⟩

theorem SameKinds.trans {t t' t'' : SpawnTree} (first : SameKinds t t') (second : SameKinds t' t'') :
    SameKinds t t'' where
  frames := second.frames.trans first.frames
  parent g := (second.parent g).trans (first.parent g)
  isCallChild g := (second.isCallChild g).trans (first.isCallChild g)

theorem SameTree.sameKinds {t t' : SpawnTree} (same : SameTree t t') : SameKinds t t' :=
  ⟨same.frames, fun g => (same.frame g).parent, fun g => (same.frame g).isCallChild⟩

theorem SameKinds.modify {t t' : SpawnTree} (before : SameKinds t t') {f : Nat}
    {change : TreeFrame → TreeFrame}
    (kept : ∀ ff, (change ff).parent = ff.parent ∧ (change ff).isCallChild = ff.isCallChild) :
    SameKinds t (t'.modify f change) := by
  refine before.trans ⟨rfl, fun g => ?_, fun g => ?_⟩ <;> by_cases here : g = f
  · rw [here, modify_frame_self, (kept _).1]
  · rw [modify_frame_other here]
  · rw [here, modify_frame_self, (kept _).2]
  · rw [modify_frame_other here]

theorem SameKinds.decjoin {t t' : SpawnTree} (before : SameKinds t t') (f : Nat) :
    SameKinds t (t'.decjoin f) := by
  have checked : SameKinds t (t'.check (0 < (t'.frame f).joinCounter) .joinCounter) :=
    ⟨(check_frames ..).trans before.frames, fun g => by rw [check_frame]; exact before.parent g,
      fun g => by rw [check_frame]; exact before.isCallChild g⟩
  exact checked.modify fun _ => ⟨rfl, rfl⟩

theorem SameKinds.provablyGoodSteal {t t' : SpawnTree} (before : SameKinds t t') (f : Nat) :
    SameKinds t (t'.provablyGoodSteal f) := by
  have checked : ∀ {u : SpawnTree} {holds : Bool} {assertion : TreeAssert}, SameKinds t u →
      SameKinds t (u.check holds assertion) := by
    intro u holds assertion kinds
    exact ⟨(check_frames ..).trans kinds.frames, fun g => by rw [check_frame]; exact kinds.parent g,
      fun g => by rw [check_frame]; exact kinds.isCallChild g⟩
  unfold SpawnTree.provablyGoodSteal
  dsimp only
  split
  · have stackKinds : SameKinds t ((t'.decjoin f).provablyGoodStealStacks f) :=
      (checked (checked (before.decjoin f))).modify fun _ => ⟨rfl, rfl⟩
    have marked : SameKinds t (((t'.decjoin f).provablyGoodStealStacks f).markSynched f) :=
      stackKinds.modify fun _ => ⟨rfl, rfl⟩
    have counted : SameKinds t
        ((((t'.decjoin f).provablyGoodStealStacks f).markSynched f).incjoin f) :=
      marked.modify fun _ => ⟨rfl, rfl⟩
    unfold pushNextFrame
    exact counted.modify fun _ => ⟨rfl, rfl⟩
  · exact before.decjoin f

theorem strand_decjoin (t : SpawnTree) (f g : Nat) :
    ((t.decjoin f).frame g).strand = (t.frame g).strand := by
  rw [SpawnTree.decjoin]
  by_cases here : g = f
  · rw [here, modify_frame_self, check_frame]
  · rw [modify_frame_other here, check_frame]

/-- The called frame is gone and its parent goes on; no other strand changes. -/
theorem JoinInv.finalizeCall_strands {t : SpawnTree} (join : JoinInv t) {c p : Nat}
    (strand : (t.frame c).strand = .disowned) (parent : (t.frame c).parent = some p) :
    SameKinds t (((t.spliceCallChild p c).destroyFullFrame c).unconditionalSteal p) ∧ p ≠ c ∧
      (t.frame p).strand = .waiting ∧
      ((((t.spliceCallChild p c).destroyFullFrame c).unconditionalSteal p).frame c).strand = .dead ∧
      ((((t.spliceCallChild p c).destroyFullFrame c).unconditionalSteal p).frame p).strand = .next ∧
      ∀ g, g ≠ c → g ≠ p →
        ((((t.spliceCallChild p c).destroyFullFrame c).unconditionalSteal p).frame g).strand =
          (t.frame g).strand := by
  have pendingChild : c ∈ t.pendingChildren p :=
    mem_pendingChildren.2 ⟨join.made (by simp [strand]), parent, by simp [strand]⟩
  have same := join.sameTree_spliceCallChild pendingChild
  have isCall := (join.frames c).callKind strand
  have waits := (join.frames p).called c pendingChild isCall
  have distinct : p ≠ c := by
    rintro rfl
    simp [strand] at waits
  have destroyed : SameKinds t ((t.spliceCallChild p c).destroyFullFrame c) :=
    same.sameKinds.modify fun _ => ⟨rfl, rfl⟩
  have counted : SameKinds t
      ((((t.spliceCallChild p c).destroyFullFrame c).decjoin p).incjoin p) :=
    (destroyed.decjoin p).modify fun _ => ⟨rfl, rfl⟩
  refine ⟨?_, distinct, waits, ?_, ?_, ?_⟩
  · unfold unconditionalSteal pushNextFrame
    exact counted.modify fun _ => ⟨rfl, rfl⟩
  · simp [unconditionalSteal, pushNextFrame, incjoin, modify_frame_other distinct.symm, strand_decjoin,
      destroyFullFrame]
  · simp [unconditionalSteal, pushNextFrame]
  · intro g notChild notParent
    simp [unconditionalSteal, pushNextFrame, incjoin, modify_frame_other notParent, strand_decjoin,
      destroyFullFrame, modify_frame_other notChild, (same.frame g).strand]

/-- What a step that is not a steal does to the strands. -/
theorem TreeInv.moves {t t' : SpawnTree} {label : TreeLabel} (inv : TreeInv t)
    (notSteal : ∀ f, label ≠ .steal f) (taken : spawnTreeStep t label = some t') :
    SameKinds t t' ∧ ∀ g, (t'.frame g).strand = (t.frame g).strand ∨
      StrandMove label g (t.frame g) (t'.frame g).strand := by
  have join := inv.toJoinInv
  have one : ∀ {u : SpawnTree} {f : Nat} {change : TreeFrame → TreeFrame},
      (∀ g, g ≠ f → (u.frame g).strand = (t.frame g).strand) →
      StrandMove label f (t.frame f) (change (u.frame f)).strand →
      ∀ g, ((u.modify f change).frame g).strand = (t.frame g).strand ∨
        StrandMove label g (t.frame g) ((u.modify f change).frame g).strand := by
    intro u f change same move g
    by_cases here : g = f
    · subst here
      rw [modify_frame_self]
      exact .inr move
    · rw [modify_frame_other here]
      exact .inl (same g here)
  cases label with
  | steal f => exact absurd rfl (notSteal f)
  | invoke f link =>
      cases strand : (t.frame f).strand <;> simp [spawnTreeStep, strand] at taken
      rw [← taken]
      exact ⟨(SameKinds.refl t).modify fun _ => ⟨rfl, rfl⟩, one (fun _ _ => rfl) (.invoke strand)⟩
  | leave f =>
      cases strand : (t.frame f).strand <;> simp [spawnTreeStep, strand] at taken
      rename_i callers
      cases callers with
      | nil => simp at taken
      | cons link callers =>
          simp only [Option.some.injEq] at taken
          rw [← taken]
          exact ⟨(SameKinds.refl t).modify fun _ => ⟨rfl, rfl⟩, one (fun _ _ => rfl) (.leave strand)⟩
  | resume f =>
      cases strand : (t.frame f).strand <;> simp [spawnTreeStep, strand] at taken
      rw [← taken]
      exact ⟨(SameKinds.refl t).modify fun _ => ⟨rfl, rfl⟩, one (fun _ _ => rfl) (.resume strand)⟩
  | sync f =>
      simp only [spawnTreeStep] at taken
      split at taken
      · rename_i atSync
        cases taken
        have freed := (SameTree.refl t).fiberToFree (f := f) (by simp [atSync.1])
        exact ⟨freed.sameKinds.modify fun _ => ⟨rfl, rfl⟩,
          one (fun g _ => (freed.frame g).strand) (.sync atSync.1)⟩
      · simp at taken
  | doSync f =>
      simp only [spawnTreeStep] at taken
      split at taken
      · rename_i strand
        cases taken
        have stalled : SameKinds t (t.modify f fun ff =>
            { ff with strand := .stalled, syncs := ff.syncs + 1 }) :=
          (SameKinds.refl t).modify fun _ => ⟨rfl, rfl⟩
        refine ⟨stalled.provablyGoodSteal f, fun g => ?_⟩
        by_cases here : g = f
        · subst here
          rcases provablyGoodSteal_strand (t.modify g fun ff =>
            { ff with strand := .stalled, syncs := ff.syncs + 1 }) g g with same | next
          · rw [same, modify_frame_self]
            exact .inr (.stall strand)
          · rw [next]
            exact .inr (.cross (.inl strand) (.inl rfl))
        · rw [provablyGoodSteal_other here, modify_frame_other here]
          exact .inl rfl
      · simp at taken
  | spawnReturn f =>
      simp only [spawnTreeStep] at taken
      split at taken
      · rename_i returns
        cases taken
        have alive : (t.frame f).strand ≠ .dead := by simp [returns.1]
        have same := join.sameTree_finishSpawnReturn alive
        exact ⟨same.sameKinds.modify fun _ => ⟨rfl, rfl⟩, one (fun g _ => (same.frame g).strand)
          (.spawnReturn returns.1 returns.2.2.1 returns.2.2.2)⟩
      · simp at taken
  | decjoinSelf f =>
      simp only [spawnTreeStep] at taken
      split at taken
      · rename_i strand
        cases taken
        refine ⟨((SameKinds.refl t).decjoin f).modify fun _ => ⟨rfl, rfl⟩,
          one (fun g _ => strand_decjoin t f g) (.leaveParent strand ?_)⟩
        dsimp only
        split
        · exact .inl rfl
        · exact .inr rfl
      · simp at taken
  | decjoinParent c =>
      cases strand : (t.frame c).strand <;> cases parent : (t.frame c).parent <;>
        simp [spawnTreeStep, strand, parent] at taken
      rename_i p
      rw [← taken]
      have destroyed : SameKinds t (t.destroyFullFrame c) :=
        (SameKinds.refl t).modify fun _ => ⟨rfl, rfl⟩
      refine ⟨destroyed.provablyGoodSteal p, fun g => ?_⟩
      have pendingChild : c ∈ t.pendingChildren p :=
        mem_pendingChildren.2 ⟨join.made (by simp [strand]), parent, by simp [strand]⟩
      have distinct : p ≠ c := by
        rintro rfl
        rw [(join.frames p).childless (by rw [strand]; trivial)] at pendingChild
        simp at pendingChild
      have parentFrame : (t.destroyFullFrame c).frame p = t.frame p := modify_frame_other distinct t _
      by_cases isParent : g = p
      · subst isParent
        have positive : 0 < ((t.destroyFullFrame c).frame g).joinCounter := by
          rw [parentFrame]
          exact (join.frames g).pos_of_pending pendingChild
        rw [provablyGoodSteal_frame positive, parentFrame]
        split
        · rename_i last
          have stalled := (join.of_decjoinParent inv.noneHeld strand parent).2 last
          exact .inr (.cross (.inr stalled) (.inr ⟨c, rfl⟩))
        · exact .inl rfl
      · rw [provablyGoodSteal_other isParent]
        by_cases isChild : g = c
        · subst isChild
          rw [destroyFullFrame, modify_frame_self]
          exact .inr (.destroy strand)
        · rw [destroyFullFrame, modify_frame_other isChild]
          exact .inl rfl
  | callReturn f =>
      simp only [spawnTreeStep] at taken
      split at taken
      · rename_i returns
        cases taken
        have checked : SameKinds t (t.check ((t.frame f).joinCounter = 1) .returnCounter) :=
          ⟨check_frames .., fun g => by rw [check_frame], fun g => by rw [check_frame]⟩
        refine ⟨(checked.decjoin f).modify fun _ => ⟨rfl, rfl⟩, one (fun g _ => ?_)
          (.callReturn returns.1 returns.2.2)⟩
        rw [strand_decjoin, check_frame]
      · simp at taken
  | finalizeCall c =>
      cases strand : (t.frame c).strand <;> cases parent : (t.frame c).parent <;>
        simp [spawnTreeStep, strand, parent] at taken
      rename_i p
      rw [← taken]
      obtain ⟨kinds, -, waits, childDead, parentNext, others⟩ := join.finalizeCall_strands strand parent
      refine ⟨kinds, fun g => ?_⟩
      by_cases isChild : g = c
      · subst isChild
        rw [childDead]
        exact .inr (.splice strand)
      · by_cases isParent : g = p
        · subst isParent
          rw [parentNext]
          exact .inr (.goOn waits)
        · exact .inl (others g isChild isParent)

/-! ### Frames and their deques -/

/-- One frame with the state of its deque. -/
structure DequeOk (f : Nat) (ff : TreeFrame) (deque : DequeState) (thieves : List Nat) : Prop where
  onDeque : deque ≠ .active → deque ≠ .gone → ∃ callers, ff.strand = .running callers
  gone : deque = .gone → ff.isCallChild = false ∧
    (ff.strand = .running [] ∨ ff.strand = .unlinked ∨ ff.strand = .leaving ∨ ff.strand = .dead)
  exiting : deque = .exiting → f = 0 ∧ ff.strand = .running []
  stealing : f ∈ thieves →
    ∃ callers, ff.strand = .running callers ∧ (SpawnTree.stealHead callers).isSome
  root : f = 0 → ff.strand ≠ .unlinked ∧ ff.strand ≠ .leaving ∧ ff.strand ≠ .disowned ∧
    ff.strand ≠ .dead
  rootKind : f = 0 → ff.isCallChild = false
  parent : ∀ p, ff.parent = some p → p < f

theorem stealHead_nil : SpawnTree.stealHead [] = none := rfl

/-- A longer call stack keeps its stealable continuation. -/
theorem stealHead_cons {link : SpawnLink} {callers : List SpawnLink}
    (head : (SpawnTree.stealHead callers).isSome) :
    (SpawnTree.stealHead (link :: callers)).isSome := by
  obtain ⟨found, foundEq⟩ := Option.isSome_iff_exists.1 head
  simp [SpawnTree.stealHead, foundEq]

/-- A frame that is not in a deque, and has not terminated, counts as active. -/
theorem DequeOk.deque_active {f : Nat} {ff : TreeFrame} {deque : DequeState} {thieves : List Nat}
    (ok : DequeOk f ff deque thieves) (notRunning : ∀ callers, ff.strand ≠ .running callers)
    (notOver : ff.strand ≠ .unlinked ∧ ff.strand ≠ .leaving ∧ ff.strand ≠ .dead) :
    deque = .active := by
  by_contra notActive
  by_cases gone : deque = .gone
  · rcases (ok.gone gone).2 with running | unlinked | leaving | dead
    · exact notRunning [] running
    · exact notOver.1 unlinked
    · exact notOver.2.1 leaving
    · exact notOver.2.2 dead
  · obtain ⟨callers, running⟩ := ok.onDeque notActive gone
    exact notRunning callers running

/-- A frame whose deque is active. -/
theorem DequeOk.of_active {f : Nat} {ff : TreeFrame} {thieves : List Nat}
    (stealing : f ∈ thieves →
      ∃ callers, ff.strand = .running callers ∧ (SpawnTree.stealHead callers).isSome)
    (root : f = 0 → ff.strand ≠ .unlinked ∧ ff.strand ≠ .leaving ∧ ff.strand ≠ .disowned ∧
      ff.strand ≠ .dead)
    (rootKind : f = 0 → ff.isCallChild = false) (parent : ∀ p, ff.parent = some p → p < f) :
    DequeOk f ff .active thieves where
  onDeque notActive := absurd rfl notActive
  gone isGone := DequeState.noConfusion isGone
  exiting isExiting := DequeState.noConfusion isExiting
  stealing := stealing
  root := root
  rootKind := rootKind
  parent := parent

/-- Every frame with the state of its deque. -/
structure DequesOk (t : SpawnTree) (deque : Nat → DequeState) (thieves : List Nat) : Prop where
  frames : ∀ f, DequeOk f (t.frame f) (deque f) thieves
  fresh : ∀ f, t.frames ≤ f → deque f = .active

/-- A frame with a thief has a strand in a deque. -/
theorem DequeOk.not_stealing {f : Nat} {ff : TreeFrame} {deque : DequeState} {thieves : List Nat}
    (ok : DequeOk f ff deque thieves)
    (noHead : ∀ callers, ff.strand = .running callers → SpawnTree.stealHead callers = none) :
    f ∉ thieves := by
  intro stealing
  obtain ⟨callers, running, head⟩ := ok.stealing stealing
  rw [noHead callers running] at head
  exact Bool.noConfusion head

/-- One strand moves. -/
theorem DequeOk.of_move {s : ActiveWorkers} {label : TreeLabel} {f : Nat} {ff : TreeFrame}
    (ready : s.Ready label) (ok : DequeOk f (s.tree.frame f) (s.deque f) s.thieves)
    (kept : ff.parent = (s.tree.frame f).parent ∧ ff.isCallChild = (s.tree.frame f).isCallChild)
    (move : StrandMove label f (s.tree.frame f) ff.strand) :
    DequeOk f ff (s.deque f) s.thieves := by
  have parent : ∀ p, ff.parent = some p → p < f := by
    rw [kept.1]
    exact ok.parent
  have rootKind : f = 0 → ff.isCallChild = false := by
    rw [kept.2]
    exact ok.rootKind
  have idle : s.deque f = .active → f ∉ s.thieves →
      (f = 0 → ff.strand ≠ .unlinked ∧ ff.strand ≠ .leaving ∧ ff.strand ≠ .disowned ∧
        ff.strand ≠ .dead) → DequeOk f ff (s.deque f) s.thieves := by
    intro active notStealing root
    rw [active]
    exact .of_active (fun stealing => absurd stealing notStealing) root rootKind parent
  have bottom : (s.tree.frame f).strand = .running [] → f ∉ s.thieves := by
    intro strand
    apply ok.not_stealing
    intro callers running
    rw [strand, FrameStrand.running.injEq] at running
    rw [← running, stealHead_nil]
  have outside : (∀ callers, (s.tree.frame f).strand ≠ .running callers) → f ∉ s.thieves := by
    intro notRunning
    apply ok.not_stealing
    intro callers running
    exact absurd running (notRunning callers)
  generalize strandEq : ff.strand = strand' at move
  cases move with
  | invoke strand =>
      have active : s.deque f = .active := ready
      rw [active]
      refine .of_active (fun stealing => ?_) (by simp [strandEq]) rootKind parent
      obtain ⟨callers, running, head⟩ := ok.stealing stealing
      rw [strand, FrameStrand.running.injEq] at running
      exact ⟨_, strandEq, running ▸ stealHead_cons head⟩
  | leave strand =>
      obtain ⟨active, keeps⟩ : s.deque f = .active ∧ s.KeepsHead f := ready
      rw [active]
      refine .of_active (fun stealing => ?_) (by simp [strandEq]) rootKind parent
      simp only [ActiveWorkers.KeepsHead, strand] at keeps
      exact ⟨_, strandEq, keeps stealing⟩
  | resume strand =>
      apply idle (ok.deque_active (by simp [strand]) (by simp [strand])) (outside (by simp [strand]))
      simp [strandEq]
  | sync strand => exact idle ready (bottom strand) (by simp [strandEq])
  | stall strand =>
      apply idle (ok.deque_active (by simp [strand]) (by simp [strand])) (outside (by simp [strand]))
      simp [strandEq]
  | cross strand =>
      rcases strand with strand | strand
      · apply idle (ok.deque_active (by simp [strand]) (by simp [strand]))
          (outside (by simp [strand]))
        simp [strandEq]
      · apply idle (ok.deque_active (by simp [strand]) (by simp [strand]))
          (outside (by simp [strand]))
        simp [strandEq]
  | spawnReturn strand _ notRoot =>
      exact idle ready (bottom strand) (fun root => absurd root notRoot)
  | leaveParent strand left =>
      have gone := ready.1
      have notStealing := outside (by simp [strand])
      refine ⟨fun _ notGone => absurd gone notGone, fun _ => ⟨?_, ?_⟩, ?_,
        fun stealing => absurd stealing notStealing, ?_, rootKind, parent⟩
      · rw [kept.2]
        exact (ok.gone gone).1
      · rw [strandEq]
        exact left.elim (fun leaving => .inr (.inr (.inl leaving)))
          (fun dead => .inr (.inr (.inr dead)))
      · simp [gone]
      · exact fun root => absurd strand (ok.root root).1
  | destroy strand =>
      have notStealing := outside (by simp [strand])
      by_cases gone : s.deque f = .gone
      · refine ⟨fun _ notGone => absurd gone notGone, fun _ => ⟨?_, ?_⟩, ?_,
          fun stealing => absurd stealing notStealing, ?_, rootKind, parent⟩
        · rw [kept.2]
          exact (ok.gone gone).1
        · exact .inr (.inr (.inr strandEq))
        · simp [gone]
        · exact fun root => absurd strand (ok.root root).2.1
      · have active : s.deque f = .active := by
          by_contra notActive
          obtain ⟨callers, running⟩ := ok.onDeque notActive gone
          simp [strand] at running
        exact idle active notStealing (fun root => absurd strand (ok.root root).2.1)
  | callReturn strand isCall =>
      apply idle ready (bottom strand)
      intro root
      simp [ok.rootKind root] at isCall
  | splice strand =>
      apply idle (ok.deque_active (by simp [strand]) (by simp [strand])) (outside (by simp [strand]))
      exact fun root => absurd strand (ok.root root).2.2.1
  | goOn strand =>
      apply idle (ok.deque_active (by simp [strand]) (by simp [strand])) (outside (by simp [strand]))
      simp [strandEq]

theorem DequesOk.of_moves {s : ActiveWorkers} {label : TreeLabel} {t' : SpawnTree}
    (ok : DequesOk s.tree s.deque s.thieves) (ready : s.Ready label) (kinds : SameKinds s.tree t')
    (moves : ∀ g, (t'.frame g).strand = (s.tree.frame g).strand ∨
      StrandMove label g (s.tree.frame g) (t'.frame g).strand) : DequesOk t' s.deque s.thieves := by
  constructor
  · intro g
    have frame := ok.frames g
    rcases moves g with same | move
    · constructor
      · rw [same]
        exact frame.onDeque
      · rw [same, kinds.isCallChild]
        exact frame.gone
      · rw [same]
        exact frame.exiting
      · rw [same]
        exact frame.stealing
      · rw [same]
        exact frame.root
      · rw [kinds.isCallChild]
        exact frame.rootKind
      · rw [kinds.parent]
        exact frame.parent
    · exact frame.of_move ready ⟨kinds.parent g, kinds.isCallChild g⟩ move
  · rw [kinds.frames]
    exact ok.fresh

/-! ### Counting the strands -/

/-- What one frame adds to `active_workers`. -/
def strandWeight (strand : FrameStrand) (deque : DequeState) : Nat :=
  (if strand.Live ∧ deque ≠ .gone then 1 else 0) + if deque = .handed then 1 else 0

def totalWeight (t : SpawnTree) (deque : Nat → DequeState) : Nat :=
  ∑ f ∈ Finset.range t.frames, strandWeight (t.frame f).strand (deque f)

theorem totalWeight_eq (s : ActiveWorkers) :
    totalWeight s.tree s.deque = s.liveStrands.card + s.handedDeques.card := by
  unfold totalWeight strandWeight ActiveWorkers.liveStrands ActiveWorkers.handedDeques
  rw [Finset.sum_add_distrib, Finset.card_filter, Finset.card_filter]

theorem totalWeight_congr {t t' : SpawnTree} {deque deque' : Nat → DequeState}
    (frames : t'.frames = t.frames)
    (same : ∀ g, strandWeight (t'.frame g).strand (deque' g) = strandWeight (t.frame g).strand (deque g)) :
    totalWeight t' deque' = totalWeight t deque := by
  unfold totalWeight
  rw [frames]
  exact Finset.sum_congr rfl fun g _ => same g

/-- The weight of one frame changes. -/
theorem totalWeight_one {t t' : SpawnTree} {deque deque' : Nat → DequeState} {f : Nat}
    (frames : t'.frames = t.frames) (made : f < t.frames)
    (same : ∀ g, g ≠ f →
      strandWeight (t'.frame g).strand (deque' g) = strandWeight (t.frame g).strand (deque g)) :
    totalWeight t' deque' + strandWeight (t.frame f).strand (deque f) =
      totalWeight t deque + strandWeight (t'.frame f).strand (deque' f) := by
  have member : f ∈ Finset.range t.frames := Finset.mem_range.2 made
  have rest : ∑ g ∈ (Finset.range t.frames).erase f, strandWeight (t'.frame g).strand (deque' g) =
      ∑ g ∈ (Finset.range t.frames).erase f, strandWeight (t.frame g).strand (deque g) :=
    Finset.sum_congr rfl fun g other => same g (Finset.ne_of_mem_erase other)
  unfold totalWeight
  rw [frames, ← Finset.add_sum_erase _ _ member, ← Finset.add_sum_erase _ _ member, rest]
  omega

/-- A frame is made. -/
theorem totalWeight_birth {t t' : SpawnTree} {deque deque' : Nat → DequeState} {f : Nat}
    (frames : t'.frames = t.frames + 1) (made : f < t.frames)
    (same : ∀ g, g ≠ t.frames → g ≠ f → t'.frame g = t.frame g)
    (sameDeque : ∀ g, g ≠ t.frames → deque' g = deque g) :
    totalWeight t' deque' + strandWeight (t.frame f).strand (deque f) =
      totalWeight t deque + strandWeight (t'.frame f).strand (deque f) +
        strandWeight (t'.frame t.frames).strand (deque' t.frames) := by
  have member : f ∈ Finset.range t.frames := Finset.mem_range.2 made
  have rest : ∑ g ∈ (Finset.range t.frames).erase f, strandWeight (t'.frame g).strand (deque' g) =
      ∑ g ∈ (Finset.range t.frames).erase f, strandWeight (t.frame g).strand (deque g) := by
    apply Finset.sum_congr rfl
    intro g other
    obtain ⟨different, inRange⟩ := Finset.mem_erase.1 other
    have old := Nat.ne_of_lt (Finset.mem_range.1 inRange)
    rw [same g old different, sameDeque g old]
  unfold totalWeight
  rw [frames, Finset.sum_range_succ, ← Finset.add_sum_erase _ _ member,
    ← Finset.add_sum_erase (Finset.range t.frames)
      (fun g => strandWeight (t.frame g).strand (deque g)) member, rest,
    sameDeque f (Nat.ne_of_lt made)]
  omega

/-- A strand that moves counts as before, but for the return of a called frame. -/
theorem DequeOk.weight_of_move {s : ActiveWorkers} {label : TreeLabel} {f : Nat}
    {strand' : FrameStrand} (ready : s.Ready label) (notCall : ∀ c, label ≠ .finalizeCall c)
    (move : StrandMove label f (s.tree.frame f) strand') :
    strandWeight strand' (s.deque f) = strandWeight (s.tree.frame f).strand (s.deque f) := by
  cases move with
  | invoke strand => simp [strandWeight, strand, FrameStrand.Live]
  | leave strand => simp [strandWeight, strand, FrameStrand.Live]
  | resume strand => simp [strandWeight, strand, FrameStrand.Live]
  | sync strand => simp [strandWeight, strand, FrameStrand.Live]
  | stall strand => simp [strandWeight, strand, FrameStrand.Live]
  | cross strand => rcases strand with strand | strand <;> simp [strandWeight, strand, FrameStrand.Live]
  | spawnReturn strand => simp [strandWeight, strand, FrameStrand.Live]
  | leaveParent strand left =>
      have gone := ready.1
      rcases left with rfl | rfl <;> simp [strandWeight, gone]
  | destroy strand => simp [strandWeight, strand, FrameStrand.Live]
  | callReturn strand => simp [strandWeight, strand, FrameStrand.Live]
  | splice => exact absurd rfl (notCall _)
  | goOn => exact absurd rfl (notCall _)

/-- The return of a called frame: its strand becomes its parent's. -/
theorem DequesOk.weight_of_finalizeCall {s : ActiveWorkers} {t' : SpawnTree}
    (ok : DequesOk s.tree s.deque s.thieves) (join : JoinInv s.tree) {c : Nat}
    (taken : spawnTreeStep s.tree (.finalizeCall c) = some t') :
    totalWeight t' s.deque = totalWeight s.tree s.deque := by
  cases strand : (s.tree.frame c).strand <;> cases parent : (s.tree.frame c).parent <;>
    simp [spawnTreeStep, strand, parent] at taken
  rename_i p
  obtain ⟨kinds, distinct, waits, childDead, parentNext, others⟩ :=
    join.finalizeCall_strands strand parent
  rw [taken] at kinds childDead parentNext others
  have childActive := (ok.frames c).deque_active (by simp [strand]) (by simp [strand])
  have parentActive := (ok.frames p).deque_active (by simp [waits]) (by simp [waits])
  have death : totalWeight (s.tree.destroyFullFrame c) s.deque + 1 = totalWeight s.tree s.deque := by
    have made : c < s.tree.frames := join.made (by simp [strand])
    have others : ∀ g, g ≠ c → strandWeight ((s.tree.destroyFullFrame c).frame g).strand (s.deque g) =
        strandWeight (s.tree.frame g).strand (s.deque g) := by
      intro g other
      rw [destroyFullFrame, modify_frame_other other]
    have one := totalWeight_one (modify_frames s.tree c fun ff => { ff with strand := .dead }) made others
    simpa [strandWeight, strand, FrameStrand.Live, childActive, destroyFullFrame] using one
  have goesOn : totalWeight t' s.deque = totalWeight (s.tree.destroyFullFrame c) s.deque + 1 := by
    have made : p < s.tree.frames := join.made (by simp [waits])
    have others' : ∀ g, g ≠ p → strandWeight (t'.frame g).strand (s.deque g) =
        strandWeight ((s.tree.destroyFullFrame c).frame g).strand (s.deque g) := by
      intro g notParent
      by_cases isChild : g = c
      · subst isChild
        simp [destroyFullFrame, childDead]
      · rw [others g isChild notParent, destroyFullFrame, modify_frame_other isChild]
    have frames : t'.frames = (s.tree.destroyFullFrame c).frames := kinds.frames
    have one := totalWeight_one frames made others'
    simpa [strandWeight, waits, FrameStrand.Live, parentActive, parentNext, destroyFullFrame,
      modify_frame_other distinct] using one
  omega

/-- Only a steal makes a strand. -/
theorem DequesOk.weight_of_moves {s : ActiveWorkers} {label : TreeLabel} {t' : SpawnTree}
    (ok : DequesOk s.tree s.deque s.thieves) (tree : TreeInv s.tree) (ready : s.Ready label)
    (notSteal : ∀ f, label ≠ .steal f) (taken : spawnTreeStep s.tree label = some t') :
    totalWeight t' s.deque = totalWeight s.tree s.deque := by
  obtain ⟨kinds, moves⟩ := tree.moves notSteal taken
  by_cases call : ∃ c, label = .finalizeCall c
  · obtain ⟨c, rfl⟩ := call
    exact ok.weight_of_finalizeCall tree.toJoinInv taken
  · apply totalWeight_congr kinds.frames
    intro g
    rcases moves g with same | move
    · rw [same]
    · exact DequeOk.weight_of_move ready (fun c isCall => call ⟨c, isCall⟩) move

/-! ### Steals -/

/-- A frame is made under `p` or under no parent: `p` is not in a deque, and the new frame is in the
    deque that `state` is the state of. -/
theorem DequesOk.of_birth {t t' : SpawnTree} {deque : Nat → DequeState} {thieves : List Nat}
    (ok : DequesOk t deque thieves) (join : JoinInv t) {p : Nat} {state : DequeState} (made : p < t.frames)
    (held : (t.frame p).strand = .held)
    (others : ∀ g, g ≠ t.frames → g ≠ p → t'.frame g = t.frame g)
    (frames : t'.frames = t.frames + 1)
    (parentKept : (t'.frame p).parent = (t.frame p).parent ∧
      (t'.frame p).isCallChild = (t.frame p).isCallChild)
    (parentStrand : (t'.frame p).strand = .waiting ∨ (t'.frame p).strand = .next)
    (child : (t'.frame t.frames).parent = none ∨ (t'.frame t.frames).parent = some p)
    (onDeque : state ≠ .active → ∃ callers, (t'.frame t.frames).strand = .running callers)
    (moving : state ≠ .gone ∧ state ≠ .exiting) :
    DequesOk t' (fun g => if g = t.frames then state else deque g) thieves := by
  have parentOk := ok.frames p
  have outside : p ∉ thieves := parentOk.not_stealing (by simp [held])
  have active := parentOk.deque_active (by simp [held]) (by simp [held])
  have isParent : p ≠ t.frames := Nat.ne_of_lt made
  have unstolen : t.frames ∉ thieves := by
    intro stealing
    obtain ⟨callers, running, -⟩ := (ok.frames t.frames).stealing stealing
    rw [join.fresh t.frames (Nat.le_refl _)] at running
    exact FrameStrand.noConfusion running
  constructor
  · intro g
    by_cases isChild : g = t.frames
    · subst isChild
      rw [if_pos rfl]
      refine ⟨fun notActive _ => onDeque notActive, fun gone => absurd gone moving.1,
        fun exiting => absurd exiting moving.2, fun stealing => absurd stealing unstolen, ?_, ?_, ?_⟩
      · omega
      · omega
      · intro q link
        rcases child with orphan | parent
        · simp [orphan] at link
        · rw [parent, Option.some.injEq] at link
          exact link ▸ made
    · rw [if_neg isChild]
      by_cases here : g = p
      · subst here
        rw [active]
        refine .of_active (fun stealing => absurd stealing outside) ?_ ?_ ?_
        · intro _
          rcases parentStrand with waiting | next
          · simp [waiting]
          · simp [next]
        · rw [parentKept.2]
          exact parentOk.rootKind
        · rw [parentKept.1]
          exact parentOk.parent
      · rw [others g isChild here]
        exact ok.frames g
  · intro g unmade
    rw [frames] at unmade
    rw [if_neg (by omega)]
    exact ok.fresh g (by omega)

/-- The function a held frame called becomes a frame, with the strand of the held one. -/
theorem DequesOk.of_makeCallChild {t : SpawnTree} {deque : Nat → DequeState} {thieves : List Nat}
    (ok : DequesOk t deque thieves) (join : JoinInv t) {f : Nat}
    (held : (t.frame f).strand = .held) :
    DequesOk (t.makeCallChild f) deque thieves ∧
      totalWeight (t.makeCallChild f) deque = totalWeight t deque := by
  have made : f < t.frames := join.made (by simp [held])
  have fresh := ok.fresh t.frames (Nat.le_refl _)
  have active := (ok.frames f).deque_active (by simp [held]) (by simp [held])
  have others : ∀ g, g ≠ t.frames → g ≠ f → (t.makeCallChild f).frame g = t.frame g :=
    fun g notChild notParent => makeCallChild_other notChild notParent
  constructor
  · have sameDeque : (fun g => if g = t.frames then .active else deque g) = deque := by
      funext g
      by_cases here : g = t.frames
      · rw [if_pos here, here, fresh]
      · rw [if_neg here]
    rw [← sameDeque]
    apply ok.of_birth join made held others rfl
    · rw [makeCallChild_parent made]
      exact ⟨rfl, rfl⟩
    · rw [makeCallChild_parent made]
      exact .inl rfl
    · rw [makeCallChild_child made]
      exact .inr rfl
    · exact fun notActive => absurd rfl notActive
    · simp
  · have sameDeque : ∀ g, g ≠ t.frames → deque g = deque g := fun _ _ => rfl
    have frames : (t.makeCallChild f).frames = t.frames + 1 := rfl
    have birth := totalWeight_birth frames made others sameDeque
    rw [makeCallChild_parent made, makeCallChild_child made, held, active, fresh] at birth
    simp only [strandWeight, FrameStrand.Live, madeFrame] at birth
    simpa using birth

theorem DequesOk.of_unroll {t : SpawnTree} {deque : Nat → DequeState} {thieves : List Nat}
    (ok : DequesOk t deque thieves) (join : JoinInv t) {f : Nat}
    (held : (t.frame f).strand = .held) (older : Nat) :
    DequesOk (t.unrollCallStack f older).1 deque thieves ∧
      totalWeight (t.unrollCallStack f older).1 deque = totalWeight t deque := by
  induction older generalizing t f with
  | zero => exact ⟨ok, rfl⟩
  | succ older ih =>
      have made : f < t.frames := join.made (by simp [held])
      obtain ⟨ok', weight⟩ := ok.of_makeCallChild join held
      have held' : ((t.makeCallChild f).frame t.frames).strand = .held := by
        rw [makeCallChild_child made]
        rfl
      obtain ⟨ok'', weight'⟩ := ih ok' (join.of_makeCallChild held) held'
      exact ⟨ok'', weight'.trans weight⟩

/-- The thief takes the loot, and the child stays in the deque that was stolen from. -/
theorem DequesOk.of_adoptChild {t : SpawnTree} {deque : Nat → DequeState} {thieves : List Nat}
    (ok : DequesOk t deque thieves) (join : JoinInv t) {loot : Nat} (future : Bool)
    (younger : List SpawnLink) {state : DequeState} (held : (t.frame loot).strand = .held)
    (moving : state ≠ .gone ∧ state ≠ .exiting) :
    DequesOk (t.adoptChild loot future younger) (fun g => if g = t.frames then state else deque g)
        thieves ∧
      totalWeight (t.adoptChild loot future younger)
          (fun g => if g = t.frames then state else deque g) =
        totalWeight t deque + strandWeight (.running younger) state := by
  have made : loot < t.frames := join.made (by simp [held])
  have active := (ok.frames loot).deque_active (by simp [held]) (by simp [held])
  have others : ∀ g, g ≠ t.frames → g ≠ loot →
      (t.adoptChild loot future younger).frame g = t.frame g :=
    fun g notChild notLoot => adoptChild_other notChild notLoot
  have frames := adoptChild_frames t loot future younger
  have lootStrand : ((t.adoptChild loot future younger).frame loot).strand = .next := by
    rw [adoptChild_loot made]
    split <;> rfl
  have childStrand : ((t.adoptChild loot future younger).frame t.frames).strand =
      .running younger := by
    rw [adoptChild_child made]
  constructor
  · apply ok.of_birth join made held others frames
    · rw [adoptChild_loot made]
      split <;> exact ⟨rfl, rfl⟩
    · exact .inr lootStrand
    · rw [adoptChild_child made]
      cases future
      · exact .inr rfl
      · exact .inl rfl
    · exact fun _ => ⟨younger, childStrand⟩
    · exact moving
  · have sameDeque : ∀ g, g ≠ t.frames → (if g = t.frames then state else deque g) = deque g :=
      fun g other => if_neg other
    have birth := totalWeight_birth frames made others sameDeque
    rw [lootStrand, childStrand, held, active, if_pos rfl] at birth
    have counts : strandWeight .held .active = 1 ∧ strandWeight .next .active = 1 := by decide
    omega

theorem unroll_frames (t : SpawnTree) (f older : Nat) :
    (t.unrollCallStack f older).1.frames = t.frames + older := by
  induction older generalizing t f with
  | zero => rfl
  | succ older ih =>
      rw [SpawnTree.unrollCallStack, ih]
      have one : (t.makeCallChild f).frames = t.frames + 1 := rfl
      omega

theorem frames_of_steal {t t' : SpawnTree} {f : Nat} (taken : spawnTreeStep t (.steal f) = some t') :
    t.frames < t'.frames := by
  cases strand : (t.frame f).strand <;> simp [spawnTreeStep, strand] at taken
  split at taken <;> simp at taken
  rw [← taken, SpawnTree.detachForSteal, adoptChild_frames, unroll_frames, modify_frames, SpawnTree.decjoin,
    modify_frames, check_frames]
  omega

/-- A steal makes one more strand; the deque stays as it is, with the child as its `frame_ff`. -/
theorem DequesOk.of_steal {s : ActiveWorkers} {t' : SpawnTree}
    (ok : DequesOk s.tree s.deque s.thieves) (tree : TreeInv s.tree) (nodup : s.thieves.Nodup) {f : Nat}
    (stealing : f ∈ s.thieves) (taken : spawnTreeStep s.tree (.steal f) = some t') :
    DequesOk (s.afterTree (.steal f) t').tree (s.afterTree (.steal f) t').deque
        (s.afterTree (.steal f) t').thieves ∧
      totalWeight (s.afterTree (.steal f) t').tree (s.afterTree (.steal f) t').deque =
        totalWeight s.tree s.deque + 1 := by
  have join := tree.toJoinInv
  have frame := ok.frames f
  cases strand : (s.tree.frame f).strand <;> simp [spawnTreeStep, strand] at taken
  rename_i callers
  split at taken <;> simp at taken
  rename_i younger future older head
  have positive := (join.frames f).pos_of_owned (by rw [strand]; trivial)
  have made : f < s.tree.frames := join.made (by simp [strand])
  -- The thief takes the frame out of the deque.
  have detachedOk : DequesOk ((s.tree.decjoin f).modify f fun ff => { ff with strand := .held })
      (fun g => if g = f then .active else s.deque g) (s.thieves.erase f) := by
    constructor
    · intro g
      by_cases here : g = f
      · subst here
        rw [modify_frame_self, if_pos rfl, decjoin_of_pos positive, modify_frame_self]
        refine .of_active (fun still => ?_) (by simp) frame.rootKind frame.parent
        exact absurd still nodup.not_mem_erase
      · rw [modify_frame_other here, if_neg here, decjoin_of_pos positive, modify_frame_other here]
        have other := ok.frames g
        exact ⟨other.onDeque, other.gone, other.exiting,
          fun still => other.stealing (List.mem_of_mem_erase still), other.root, other.rootKind,
          other.parent⟩
    · intro g unmade
      rw [modify_frames, decjoin_of_pos positive, modify_frames] at unmade
      rw [if_neg (by omega)]
      exact ok.fresh g unmade
  have moving : s.deque f ≠ .gone ∧ s.deque f ≠ .exiting := by
    obtain ⟨callers', running, isSome⟩ := frame.stealing stealing
    have notBottom : (s.tree.frame f).strand ≠ .running [] := by
      rw [running, ne_eq, FrameStrand.running.injEq]
      rintro rfl
      simp [stealHead_nil] at isSome
    constructor
    · intro gone
      rcases (frame.gone gone).2 with bottom | past | past | past
      · exact notBottom bottom
      · simp [strand] at past
      · simp [strand] at past
      · simp [strand] at past
    · exact fun exiting => notBottom (frame.exiting exiting).2
  have detachedWeight : totalWeight ((s.tree.decjoin f).modify f fun ff => { ff with strand := .held })
        (fun g => if g = f then .active else s.deque g) + strandWeight (.running younger) (s.deque f) =
      totalWeight s.tree s.deque + 1 := by
    have frames : ((s.tree.decjoin f).modify f fun ff => { ff with strand := .held }).frames =
        s.tree.frames := by
      rw [modify_frames, decjoin_of_pos positive, modify_frames]
    have others : ∀ g, g ≠ f →
        strandWeight (((s.tree.decjoin f).modify f fun ff => { ff with strand := .held }).frame
          g).strand (if g = f then .active else s.deque g) =
        strandWeight (s.tree.frame g).strand (s.deque g) := by
      intro g other
      rw [modify_frame_other other, strand_decjoin, if_neg other]
    have one := totalWeight_one frames made others
    rw [strand, modify_frame_self, if_pos rfl] at one
    have sameKind : strandWeight (.running younger) (s.deque f) =
        strandWeight (.running callers) (s.deque f) := by
      simp [strandWeight, FrameStrand.Live]
    have counts : strandWeight .held .active = 1 := by decide
    simp only at one
    omega
  have held : (((s.tree.decjoin f).modify f fun ff => { ff with strand := .held }).frame f).strand =
      .held := by
    rw [modify_frame_self]
  have only : SpawnTree.OnlyHeld
      ((s.tree.decjoin f).modify f fun ff => { ff with strand := .held }) f := by
    intro g heldToo
    by_contra other
    rw [modify_frame_other other, strand_decjoin] at heldToo
    exact tree.noneHeld g heldToo
  have joinDetached := join.of_detach strand
  obtain ⟨joinUnrolled, lootHeld, -⟩ := joinDetached.of_unroll held only older
  obtain ⟨unrolledOk, unrolledWeight⟩ := detachedOk.of_unroll joinDetached held older
  have child : t'.frames - 1 = (((s.tree.decjoin f).modify f fun ff =>
      { ff with strand := .held }).unrollCallStack f older).1.frames := by
    rw [← taken, SpawnTree.detachForSteal, adoptChild_frames, Nat.add_sub_cancel]
  unfold ActiveWorkers.afterTree ActiveWorkers.setDeque
  dsimp only
  rw [child, ← taken]
  have adopted := unrolledOk.of_adoptChild joinUnrolled future younger lootHeld moving
  exact ⟨adopted.1, adopted.2.trans (by omega)⟩

/-! ### The invariant -/

/-- The exit frame has not been pushed, and nobody is about to. -/
def ActiveWorkers.Quiet (s : ActiveWorkers) : Prop := s.pushers = [] ∧ s.pushes = []

/-- What holds in each phase of the return from the initial frame. -/
def PhaseOk (s : ActiveWorkers) : Prop :=
  match s.exit with
  | .before => (s.deque 0 ≠ .gone ∧ s.deque 0 ≠ .exiting) ∧ s.Quiet ∧ s.exitFrame = none
  | .fast => s.deque 0 = .exiting ∧ s.Quiet ∧ s.activeWorkers = 1
  | .suspending => s.deque 0 = .exiting ∧ s.Quiet
  | .exposed => s.deque 0 = .exiting ∧ s.Quiet ∧ s.exitFrame = some 0 ∧ s.syncMaster = some 0
  | .suspended => s.deque 0 = .gone ∧
      (s.pushers.length + s.pushes.length = (if s.activeWorkers = 0 then 1 else 0) ∧
        ∀ worker ∈ s.pushes, worker = 0) ∧ s.exitFrame = some 0 ∧ s.syncMaster = some 0
  | .returned false => s.deque 0 = .gone ∧ s.Quiet ∧ s.activeWorkers = 0
  | .returned true => s.deque 0 = .gone ∧ (s.pushers = [] ∧ s.pushes = [0]) ∧ s.activeWorkers = 0

/-- What holds in every reachable state. -/
structure ActiveInv (s : ActiveWorkers) : Prop where
  tree : TreeInv s.tree
  deques : DequesOk s.tree s.deque s.thieves
  nodup : s.thieves.Nodup
  count : s.activeWorkers = (totalWeight s.tree s.deque : Int) + s.thieves.length
  phase : PhaseOk s
  failures : ∀ assertion ∈ s.failures, assertion = .dequeDestroy

theorem weight_le_total {t : SpawnTree} (deque : Nat → DequeState) {f : Nat} (made : f < t.frames) :
    strandWeight (t.frame f).strand (deque f) ≤ totalWeight t deque := by
  rw [totalWeight, ← Finset.add_sum_erase _ _ (Finset.mem_range.2 made)]
  exact Nat.le_add_right _ _

theorem weight_add_le_total {t : SpawnTree} (deque : Nat → DequeState) {f g : Nat}
    (made : f < t.frames) (made' : g < t.frames) (distinct : f ≠ g) :
    strandWeight (t.frame f).strand (deque f) + strandWeight (t.frame g).strand (deque g) ≤
      totalWeight t deque := by
  have pair : ∑ c ∈ {f, g}, strandWeight (t.frame c).strand (deque c) =
      strandWeight (t.frame f).strand (deque f) + strandWeight (t.frame g).strand (deque g) :=
    Finset.sum_pair distinct
  rw [← pair]
  apply Finset.sum_le_sum_of_subset
  intro c member
  rcases Finset.mem_insert.1 member with rfl | single
  · exact Finset.mem_range.2 made
  · exact Finset.mem_range.2 (Finset.mem_singleton.1 single ▸ made')

theorem one_le_weight {strand : FrameStrand} {deque : DequeState} (live : strand.Live)
    (counts : deque ≠ .gone) : 1 ≤ strandWeight strand deque := by
  unfold strandWeight
  rw [if_pos ⟨live, counts⟩]
  exact Nat.le_add_right _ _

/-- A frame that waits is a step on the way to a called frame with a strand. -/
theorem TreeInv.live_of_waiting {t : SpawnTree} (tree : TreeInv t)
    (order : ∀ c p, (t.frame c).parent = some p → p < c) (n : Nat) :
    ∀ f, t.frames ≤ f + n → (t.frame f).strand = .waiting →
      ∃ g, g < t.frames ∧ (t.frame g).isCallChild = true ∧ (t.frame g).strand.Live ∧
        (t.frame g).strand ≠ .unlinked := by
  induction n with
  | zero =>
      intro f unmade waits
      rw [tree.fresh f unmade] at waits
      exact FrameStrand.noConfusion waits
  | succ n ih =>
      intro f room waits
      obtain ⟨c, pending, isCall⟩ := (tree.frames f).waiting waits
      obtain ⟨made, parent, alive⟩ := mem_pendingChildren.1 pending
      have later := order c f parent
      have notSpawn : (t.frame c).strand ≠ .unlinked ∧ (t.frame c).strand ≠ .leaving := by
        have kind := (tree.frames c).spawnKind
        have isCallChild : (t.frame c).isCallChild = true := isCall
        rw [isCallChild] at kind
        exact ⟨fun unlinked => Bool.noConfusion (kind (.inl unlinked)),
          fun leaving => Bool.noConfusion (kind (.inr leaving))⟩
      by_cases waitsToo : (t.frame c).strand = .waiting
      · exact ih c (by omega) waitsToo
      · refine ⟨c, made, isCall, ?_, notSpawn.1⟩
        cases strand : (t.frame c).strand <;> simp [strand] at alive notSpawn waitsToo <;> trivial

/-- The initial strand counts until it has returned. -/
theorem ActiveInv.initial_strand {s : ActiveWorkers} (inv : ActiveInv s) (here : s.deque 0 ≠ .gone) :
    ∃ g, g < s.tree.frames ∧ 1 ≤ strandWeight (s.tree.frame g).strand (s.deque g) ∧
      (s.tree.frame g).strand ≠ .unlinked := by
  have root := (inv.deques.frames 0).root rfl
  have made : 0 < s.tree.frames := inv.tree.made root.2.2.2
  by_cases waits : (s.tree.frame 0).strand = .waiting
  · obtain ⟨g, madeG, isCall, live, notUnlinked⟩ := inv.tree.live_of_waiting
      (fun c => (inv.deques.frames c).parent) s.tree.frames 0 (by omega) waits
    refine ⟨g, madeG, one_le_weight live ?_, notUnlinked⟩
    intro gone
    have kind := ((inv.deques.frames g).gone gone).1
    rw [isCall] at kind
    exact Bool.noConfusion kind
  · refine ⟨0, made, one_le_weight ?_ here, root.1⟩
    cases strand : (s.tree.frame 0).strand <;> simp [strand] at root waits <;> trivial

/-- The state of one deque changes. -/
theorem DequesOk.of_setDeque {t : SpawnTree} {deque : Nat → DequeState} {thieves : List Nat}
    (ok : DequesOk t deque thieves) {f : Nat} {state : DequeState} (made : f < t.frames)
    (frame : DequeOk f (t.frame f) state thieves) :
    DequesOk t (fun g => if g = f then state else deque g) thieves := by
  constructor
  · intro g
    by_cases here : g = f
    · subst here
      rw [if_pos rfl]
      exact frame
    · rw [if_neg here]
      exact ok.frames g
  · intro g unmade
    rw [if_neg (by omega)]
    exact ok.fresh g unmade

/-- A frame in a deque with another state of it. -/
theorem DequeOk.of_running {f : Nat} {ff : TreeFrame} {deque deque' : DequeState} {thieves : List Nat}
    (ok : DequeOk f ff deque thieves) {callers : List SpawnLink} (running : ff.strand = .running callers)
    (moving : deque' ≠ .gone ∧ deque' ≠ .exiting) : DequeOk f ff deque' thieves where
  onDeque _ _ := ⟨callers, running⟩
  gone isGone := absurd isGone moving.1
  exiting isExiting := absurd isExiting moving.2
  stealing := ok.stealing
  root := ok.root
  rootKind := ok.rootKind
  parent := ok.parent

/-- The weight when the state of one deque changes. -/
theorem totalWeight_setDeque {t : SpawnTree} (deque : Nat → DequeState) {f : Nat}
    (state : DequeState) (made : f < t.frames) :
    totalWeight t (fun g => if g = f then state else deque g) +
        strandWeight (t.frame f).strand (deque f) =
      totalWeight t deque + strandWeight (t.frame f).strand state := by
  have others : ∀ g, g ≠ f → strandWeight (t.frame g).strand (if g = f then state else deque g) =
      strandWeight (t.frame g).strand (deque g) := by
    intro g other
    rw [if_neg other]
  have one := totalWeight_one rfl made others
  rwa [if_pos rfl] at one

/-- The phase stays when the counter stays above 0. -/
theorem PhaseOk.of_count {s s' : ActiveWorkers} (phase : PhaseOk s)
    (deque : s'.deque 0 = s.deque 0 ∨ (s.deque 0 ≠ .gone ∧ s.deque 0 ≠ .exiting ∧
      s'.deque 0 ≠ .gone ∧ s'.deque 0 ≠ .exiting))
    (kept : s'.exit = s.exit ∧ s'.exitFrame = s.exitFrame ∧ s'.syncMaster = s.syncMaster ∧
      s'.pushers = s.pushers ∧ s'.pushes = s.pushes)
    (count : s'.activeWorkers = s.activeWorkers ∨
      (s.exit ≠ .fast ∧ 0 < s.activeWorkers ∧ 0 < s'.activeWorkers)) : PhaseOk s' := by
  obtain ⟨exit, exitFrame, syncMaster, pushers, pushes⟩ := kept
  unfold PhaseOk ActiveWorkers.Quiet at phase ⊢
  rw [exit, exitFrame, syncMaster, pushers, pushes]
  cases phaseEq : s.exit with
  | before =>
      rw [phaseEq] at phase
      rcases deque with same | moved
      · rw [same]
        exact phase
      · exact ⟨moved.2.2, phase.2⟩
  | fast =>
      rw [phaseEq] at phase count
      rcases deque with same | moved
      · rcases count with sameCount | changed
        · rw [same, sameCount]
          exact phase
        · exact absurd rfl changed.1
      · exact absurd phase.1 moved.2.1
  | suspending =>
      rw [phaseEq] at phase
      rcases deque with same | moved
      · rw [same]
        exact phase
      · exact absurd phase.1 moved.2.1
  | exposed =>
      rw [phaseEq] at phase
      rcases deque with same | moved
      · rw [same]
        exact phase
      · exact absurd phase.1 moved.2.1
  | suspended =>
      rw [phaseEq] at phase
      rcases deque with same | moved
      · rw [same]
        rcases count with sameCount | ⟨-, positive, positive'⟩
        · rw [sameCount]
          exact phase
        · dsimp only at phase ⊢
          rw [if_neg (by omega)] at phase ⊢
          exact phase
      · exact absurd phase.1 moved.1
  | returned suspended =>
      cases suspended <;> rw [phaseEq] at phase <;> dsimp only at phase ⊢ <;>
        rcases deque with same | moved
      · rcases count with sameCount | ⟨-, positive, -⟩
        · rw [same, sameCount]
          exact phase
        · omega
      · exact absurd phase.1 moved.1
      · rcases count with sameCount | ⟨-, positive, -⟩
        · rw [same, sameCount]
          exact phase
        · omega
      · exact absurd phase.1 moved.1

/-! ### Steps of the tree and of the deques -/

/-- The deque of a strand that moves is neither given up nor that of the returning initial frame. -/
theorem DequeOk.moving_of_head {f : Nat} {ff : TreeFrame} {deque : DequeState} {thieves : List Nat}
    (ok : DequeOk f ff deque thieves) {callers : List SpawnLink} (running : ff.strand = .running callers)
    (head : (SpawnTree.stealHead callers).isSome) : deque ≠ .gone ∧ deque ≠ .exiting := by
  have notBottom : ff.strand ≠ .running [] := by
    rw [running, ne_eq, FrameStrand.running.injEq]
    rintro rfl
    simp [stealHead_nil] at head
  constructor
  · intro gone
    rcases (ok.gone gone).2 with bottom | past | past | past
    · exact notBottom bottom
    · simp [running] at past
    · simp [running] at past
    · simp [running] at past
  · exact fun exiting => notBottom (ok.exiting exiting).2

theorem ActiveInv.of_tree {s s' : ActiveWorkers} {label : TreeLabel} (inv : ActiveInv s)
    (taken : activeWorkersStep s (.tree label) = some s') : ActiveInv s' := by
  simp only [activeWorkersStep] at taken
  split at taken
  · simp at taken
  split at taken
  case isFalse => simp at taken
  rename_i ready
  obtain ⟨t', treeTaken, rfl⟩ := Option.map_eq_some_iff.1 taken
  by_cases steal : ∃ f, label = .steal f
  · obtain ⟨f, rfl⟩ := steal
    have stealing : f ∈ s.thieves := ready
    obtain ⟨deques, weight⟩ := inv.deques.of_steal inv.tree inv.nodup stealing treeTaken
    obtain ⟨callers, running, head⟩ := (inv.deques.frames f).stealing stealing
    have moving := (inv.deques.frames f).moving_of_head running head
    refine ⟨inv.tree.of_step treeTaken, deques, inv.nodup.erase f, ?_, ?_, inv.failures⟩
    · have count := inv.count
      have length := List.length_erase_add_one stealing
      have sameCount : (s.afterTree (.steal f) t').activeWorkers = s.activeWorkers := rfl
      have sameThieves : (s.afterTree (.steal f) t').thieves = s.thieves.erase f := rfl
      rw [weight, sameCount, sameThieves]
      omega
    · refine inv.phase.of_count ?_ ⟨rfl, rfl, rfl, rfl, rfl⟩ (.inl rfl)
      unfold ActiveWorkers.afterTree ActiveWorkers.setDeque
      dsimp only
      by_cases isRoot : 0 = f
      · subst isRoot
        refine .inr ⟨moving.1, moving.2, ?_⟩
        split
        · exact moving
        · simp
      · have notChild : 0 ≠ t'.frames - 1 := by
          have more := frames_of_steal treeTaken
          have made := inv.tree.made (by rw [running]; simp)
          omega
        rw [if_neg isRoot, if_neg notChild]
        exact .inl rfl
  · have notSteal : ∀ f, label ≠ .steal f := fun f isSteal => steal ⟨f, isSteal⟩
    have same : s.afterTree label t' = { s with tree := t' } := by
      cases label <;> first | rfl | exact absurd rfl (notSteal _)
    obtain ⟨kinds, moves⟩ := inv.tree.moves notSteal treeTaken
    rw [same]
    refine ⟨inv.tree.of_step treeTaken, inv.deques.of_moves ready kinds moves, inv.nodup, ?_, ?_,
      inv.failures⟩
    · have weight := inv.deques.weight_of_moves inv.tree ready notSteal treeTaken
      dsimp only
      rw [weight]
      exact inv.count
    · exact inv.phase.of_count (.inl rfl) ⟨rfl, rfl, rfl, rfl, rfl⟩ (.inl rfl)

/-- A thief increments `active_workers` before it detaches. -/
theorem ActiveInv.of_increment {s : ActiveWorkers} (inv : ActiveInv s) {f : Nat}
    {callers : List SpawnLink} (running : (s.tree.frame f).strand = .running callers)
    (head : (SpawnTree.stealHead callers).isSome) (free : f ∉ s.thieves) :
    ActiveInv { s.increment with thieves := f :: s.thieves } := by
  have frame := inv.deques.frames f
  have moving := frame.moving_of_head running head
  have made : f < s.tree.frames := inv.tree.made (by simp [running])
  have counts : 1 ≤ strandWeight (s.tree.frame f).strand (s.deque f) :=
    one_le_weight (by rw [running]; trivial) moving.1
  have total := weight_le_total s.deque made
  have count := inv.count
  refine ⟨inv.tree, ⟨fun g => ?_, inv.deques.fresh⟩, List.nodup_cons.2 ⟨free, inv.nodup⟩, ?_, ?_,
    inv.failures⟩
  · have other := inv.deques.frames g
    refine ⟨other.onDeque, other.gone, other.exiting, fun stealing => ?_, other.root, other.rootKind,
      other.parent⟩
    rcases List.mem_cons.1 stealing with rfl | old
    · exact ⟨callers, running, head⟩
    · exact other.stealing old
  · simp only [ActiveWorkers.increment, List.length_cons]
    omega
  · refine inv.phase.of_count (.inl rfl) ⟨rfl, rfl, rfl, rfl, rfl⟩
      (.inr ⟨?_, by omega, by simp only [ActiveWorkers.increment]; omega⟩)
    intro fast
    have phase := inv.phase
    unfold PhaseOk at phase
    rw [fast] at phase
    obtain ⟨exiting, -, one⟩ := phase
    obtain ⟨isRoot, rootRunning⟩ := (inv.deques.frames 0).exiting exiting
    have notRoot : f ≠ 0 := by
      rintro rfl
      exact moving.2 exiting
    have rootCounts : 1 ≤ strandWeight (s.tree.frame 0).strand (s.deque 0) :=
      one_le_weight (by rw [rootRunning]; trivial) (by simp [exiting])
    have both := weight_add_le_total s.deque made
      (inv.tree.made (by simp [rootRunning])) notRoot
    omega

/-- The deque of a strand changes hands. -/
theorem ActiveInv.of_setDeque {s : ActiveWorkers} (inv : ActiveInv s) {f : Nat} {state : DequeState}
    {callers : List SpawnLink} (running : (s.tree.frame f).strand = .running callers)
    (before : s.deque f ≠ .gone ∧ s.deque f ≠ .exiting ∧ s.deque f ≠ .handed)
    (after : state ≠ .gone ∧ state ≠ .exiting ∧ state ≠ .handed) : ActiveInv (s.setDeque f state) := by
  have made : f < s.tree.frames := inv.tree.made (by simp [running])
  refine ⟨inv.tree, inv.deques.of_setDeque made
    ((inv.deques.frames f).of_running running ⟨after.1, after.2.1⟩), inv.nodup, ?_, ?_, inv.failures⟩
  · have weight := totalWeight_setDeque s.deque state made
    have same : strandWeight (s.tree.frame f).strand (s.deque f) =
        strandWeight (s.tree.frame f).strand state := by
      simp [strandWeight, before, after]
    have count := inv.count
    simp only [ActiveWorkers.setDeque]
    omega
  · refine inv.phase.of_count ?_ ⟨rfl, rfl, rfl, rfl, rfl⟩ (.inl rfl)
    simp only [ActiveWorkers.setDeque]
    by_cases isRoot : 0 = f
    · subst isRoot
      rw [if_pos rfl]
      exact .inr ⟨before.1, before.2.1, after.1, after.2.1⟩
    · rw [if_neg isRoot]
      exact .inl rfl

/-! ### Hand-offs -/

/-- A future's strand ends, and the worker resumes the deque that waited for it. -/
theorem ActiveInv.of_handOff {s : ActiveWorkers} (inv : ActiveInv s) {f g : Nat}
    (active : s.deque f = .active) (suspended : s.deque g = .suspended)
    (running : (s.tree.frame f).strand = .running []) (future : s.StolenFuture f) :
    ActiveInv ((s.setDeque f .gone).setDeque g .handed) := by
  obtain ⟨-, isCallChild, -, notRoot⟩ := future
  have distinct : g ≠ f := by
    rintro rfl
    rw [active] at suspended
    exact DequeState.noConfusion suspended
  obtain ⟨callers, runningG⟩ := (inv.deques.frames g).onDeque (by simp [suspended]) (by simp [suspended])
  have made : f < s.tree.frames := inv.tree.made (by simp [running])
  have madeG : g < s.tree.frames := inv.tree.made (by simp [runningG])
  have frame := inv.deques.frames f
  have gone : DequeOk f (s.tree.frame f) .gone s.thieves :=
    ⟨fun _ notGone => absurd rfl notGone, fun _ => ⟨isCallChild, .inl running⟩,
      fun exiting => DequeState.noConfusion exiting, frame.stealing, frame.root, frame.rootKind,
      frame.parent⟩
  have ended := inv.deques.of_setDeque made gone
  have handedG : DequeOk g (s.tree.frame g) .handed s.thieves :=
    (inv.deques.frames g).of_running runningG (by simp)
  have handed := ended.of_setDeque madeG handedG
  refine ⟨inv.tree, handed, inv.nodup, ?_, ?_, inv.failures⟩
  · have first := totalWeight_setDeque s.deque .gone made
    have second := totalWeight_setDeque (fun h => if h = f then .gone else s.deque h) .handed madeG
    rw [if_neg distinct, suspended, runningG] at second
    rw [active, running] at first
    have weights : strandWeight (.running []) .active = 1 ∧ strandWeight (.running []) .gone = 0 := by
      decide
    have weightsG : strandWeight (.running callers) .suspended = 1 ∧
        strandWeight (.running callers) .handed = 2 := by
      simp [strandWeight, FrameStrand.Live]
    have count := inv.count
    simp only [ActiveWorkers.setDeque]
    omega
  · refine inv.phase.of_count ?_ ⟨rfl, rfl, rfl, rfl, rfl⟩ (.inl rfl)
    simp only [ActiveWorkers.setDeque]
    rw [if_neg (Ne.symm notRoot)]
    by_cases isRoot : 0 = g
    · subst isRoot
      simp [suspended]
    · rw [if_neg isRoot]
      exact .inl rfl

theorem ActiveInv.of_handOffDecrement {s : ActiveWorkers} (inv : ActiveInv s) {g : Nat}
    (handed : s.deque g = .handed) : ActiveInv (s.setDeque g .active).decrement := by
  obtain ⟨callers, running⟩ := (inv.deques.frames g).onDeque (by simp [handed]) (by simp [handed])
  have made : g < s.tree.frames := inv.tree.made (by simp [running])
  have weights : strandWeight (.running callers) .active = 1 ∧
      strandWeight (.running callers) .handed = 2 := by
    simp [strandWeight, FrameStrand.Live]
  have total := weight_le_total s.deque made
  rw [running, handed] at total
  have count := inv.count
  refine ⟨inv.tree, inv.deques.of_setDeque made
    ((inv.deques.frames g).of_running running (by simp)), inv.nodup, ?_, ?_, inv.failures⟩
  · have weight := totalWeight_setDeque s.deque .active made
    rw [running, handed] at weight
    simp only [ActiveWorkers.decrement, ActiveWorkers.setDeque]
    omega
  · refine inv.phase.of_count ?_ ⟨rfl, rfl, rfl, rfl, rfl⟩ (.inr ⟨?_, by omega, ?_⟩)
    · simp only [ActiveWorkers.decrement, ActiveWorkers.setDeque]
      by_cases isRoot : 0 = g
      · subst isRoot
        simp [handed]
      · rw [if_neg isRoot]
        exact .inl rfl
    · intro fast
      have phase := inv.phase
      unfold PhaseOk at phase
      rw [fast] at phase
      have one := phase.2.2
      omega
    · simp only [ActiveWorkers.decrement, ActiveWorkers.setDeque]
      omega

/-! ### Returns -/

/-- The last strand on the counter is not the initial one: that one has returned and suspended. -/
theorem ActiveInv.suspended_of_last {s : ActiveWorkers} (inv : ActiveInv s) {f : Nat}
    (strand : (s.tree.frame f).strand = .unlinked) (active : s.deque f = .active)
    (last : s.activeWorkers = 1) : s.exit = .suspended := by
  have made : f < s.tree.frames := inv.tree.made (by simp [strand])
  have counts : 1 ≤ strandWeight (s.tree.frame f).strand (s.deque f) :=
    one_le_weight (by rw [strand]; trivial) (by simp [active])
  have count := inv.count
  have rootGone : s.deque 0 = .gone := by
    by_contra here
    obtain ⟨g, madeG, countsG, notUnlinked⟩ := inv.initial_strand here
    have distinct : f ≠ g := by
      rintro rfl
      exact notUnlinked strand
    have both := weight_add_le_total s.deque made madeG distinct
    omega
  have phase := inv.phase
  unfold PhaseOk at phase
  cases exit : s.exit with
  | before =>
      rw [exit] at phase
      exact absurd rootGone phase.1.1
  | fast =>
      rw [exit] at phase
      simp [rootGone] at phase
  | suspending =>
      rw [exit] at phase
      simp [rootGone] at phase
  | exposed =>
      rw [exit] at phase
      simp [rootGone] at phase
  | suspended => rfl
  | returned suspended =>
      cases suspended <;> rw [exit] at phase <;> dsimp only at phase <;> omega

theorem ActiveInv.of_decrement {s : ActiveWorkers} (inv : ActiveInv s) {f : Nat}
    (strand : (s.tree.frame f).strand = .unlinked) (active : s.deque f = .active) :
    ActiveInv (s.terminate f) := by
  have made : f < s.tree.frames := inv.tree.made (by simp [strand])
  have frame := inv.deques.frames f
  have notRoot : 0 ≠ f := by
    rintro rfl
    exact (frame.root rfl).1 strand
  have isCallChild := (inv.tree.frames f).spawnKind (.inl strand)
  have gone : DequeOk f (s.tree.frame f) .gone s.thieves :=
    ⟨fun _ notGone => absurd rfl notGone, fun _ => ⟨isCallChild, .inr (.inl strand)⟩,
      fun exiting => DequeState.noConfusion exiting, frame.stealing, frame.root, frame.rootKind,
      frame.parent⟩
  have ended := inv.deques.of_setDeque made gone
  have weight := totalWeight_setDeque s.deque .gone made
  rw [strand, active] at weight
  have weights : strandWeight .unlinked .active = 1 ∧ strandWeight .unlinked .gone = 0 := by decide
  have count := inv.count
  unfold ActiveWorkers.terminate ActiveWorkers.decrement ActiveWorkers.setDeque
  dsimp only
  by_cases last : s.activeWorkers - 1 = 0
  · rw [if_pos last]
    refine ⟨inv.tree, ended, inv.nodup, by dsimp only; omega, ?_, inv.failures⟩
    have exit := inv.suspended_of_last strand active (by omega)
    have phase := inv.phase
    unfold PhaseOk at phase ⊢
    rw [exit] at phase ⊢
    dsimp only at phase ⊢
    rw [if_neg (by omega)] at phase
    rw [if_neg notRoot, if_pos last, List.length_cons]
    exact ⟨phase.1, ⟨by omega, phase.2.1.2⟩, phase.2.2⟩
  · rw [if_neg last]
    refine ⟨inv.tree, ended, inv.nodup, by dsimp only; omega, ?_, inv.failures⟩
    refine inv.phase.of_count (.inl (if_neg notRoot)) ⟨rfl, rfl, rfl, rfl, rfl⟩
      (.inr ⟨?_, by omega, by dsimp only; omega⟩)
    intro fast
    have phase := inv.phase
    unfold PhaseOk at phase
    rw [fast] at phase
    have one := phase.2.2
    omega

/-- Who is about to push the exit frame: only after the initial frame has suspended, and alone. -/
theorem ActiveInv.pushing {s : ActiveWorkers} (inv : ActiveInv s) (pushers : s.pushers ≠ []) :
    s.exit = .suspended ∧ s.exitFrame = some 0 ∧ s.syncMaster = some 0 ∧ s.pushers.length = 1 ∧
      s.pushes = [] ∧ s.activeWorkers = 0 := by
  have phase := inv.phase
  unfold PhaseOk ActiveWorkers.Quiet at phase
  cases exit : s.exit with
  | before =>
      rw [exit] at phase
      exact absurd phase.2.1.1 pushers
  | fast =>
      rw [exit] at phase
      exact absurd phase.2.1.1 pushers
  | suspending =>
      rw [exit] at phase
      exact absurd phase.2.1 pushers
  | exposed =>
      rw [exit] at phase
      exact absurd phase.2.1.1 pushers
  | suspended =>
      rw [exit] at phase
      obtain ⟨-, ⟨lengths, -⟩, exitFrame, syncMaster⟩ := phase
      have some : 0 < s.pushers.length := List.length_pos_iff.2 pushers
      by_cases zero : s.activeWorkers = 0
      · rw [if_pos zero] at lengths
        exact ⟨rfl, exitFrame, syncMaster, by omega, List.length_eq_zero_iff.1 (by omega), zero⟩
      · rw [if_neg zero] at lengths
        omega
  | returned suspended =>
      cases suspended <;> rw [exit] at phase
      · exact absurd phase.2.1.1 pushers
      · exact absurd phase.2.1.1 pushers

theorem ActiveInv.of_push {s : ActiveWorkers} (inv : ActiveInv s) {f : Nat} (pusher : f ∈ s.pushers) :
    ActiveInv (s.pushExitFrame f) ∧ (s.pushExitFrame f).pushes = [0] := by
  obtain ⟨exit, exitFrame, syncMaster, one, empty, zero⟩ := inv.pushing (List.ne_nil_of_mem pusher)
  have checked : s.check s.exitFrame.isSome .exitFrame = s := by
    rw [exitFrame]
    rfl
  unfold ActiveWorkers.pushExitFrame
  rw [checked]
  have length := List.length_erase_add_one pusher
  refine ⟨⟨inv.tree, inv.deques, inv.nodup, inv.count, ?_, inv.failures⟩, by simp [empty, syncMaster]⟩
  have phase := inv.phase
  unfold PhaseOk at phase ⊢
  rw [exit] at phase
  simp only [exit]
  refine ⟨phase.1, ⟨?_, ?_⟩, exitFrame, syncMaster⟩
  · rw [if_pos zero, syncMaster, empty]
    simp only [Option.toList_some, List.nil_append, List.length_cons, List.length_nil]
    omega
  · simp [empty, syncMaster]

/-- The initial frame runs its return. -/
theorem ActiveInv.root_exiting {s : ActiveWorkers} (inv : ActiveInv s) (exiting : s.deque 0 = .exiting) :
    (s.tree.frame 0).strand = .running [] ∧ 0 < s.tree.frames ∧
      1 ≤ totalWeight s.tree s.deque := by
  have running := ((inv.deques.frames 0).exiting exiting).2
  have made : 0 < s.tree.frames := inv.tree.made (by simp [running])
  have counts : 1 ≤ strandWeight (s.tree.frame 0).strand (s.deque 0) :=
    one_le_weight (by rw [running]; trivial) (by simp [exiting])
  exact ⟨running, made, counts.trans (weight_le_total s.deque made)⟩

theorem ActiveInv.of_returnFromInitial {s : ActiveWorkers} (inv : ActiveInv s) (worker : Nat)
    (running : (s.tree.frame 0).strand = .running []) (active : s.deque 0 = .active)
    (before : s.exit = .before) :
    ActiveInv { s.setDeque 0 .exiting with
      exit := if worker ≠ 0 ∨ 1 < s.activeWorkers then .suspending else .fast } := by
  have made : 0 < s.tree.frames := inv.tree.made (by simp [running])
  have frame := inv.deques.frames 0
  have exiting : DequeOk 0 (s.tree.frame 0) .exiting s.thieves :=
    ⟨fun _ _ => ⟨[], running⟩, fun gone => DequeState.noConfusion gone, fun _ => ⟨rfl, running⟩,
      frame.stealing, frame.root, frame.rootKind, frame.parent⟩
  have weight := totalWeight_setDeque s.deque .exiting made
  rw [running, active] at weight
  have weights : strandWeight (.running []) .active = 1 ∧ strandWeight (.running []) .exiting = 1 := by
    decide
  have total := weight_le_total s.deque made
  rw [running, active] at total
  have count := inv.count
  refine ⟨inv.tree, inv.deques.of_setDeque made exiting, inv.nodup, ?_, ?_, inv.failures⟩
  · simp only [ActiveWorkers.setDeque]
    omega
  · have phase := inv.phase
    unfold PhaseOk at phase ⊢
    rw [before] at phase
    dsimp only at phase ⊢
    by_cases slow : worker ≠ 0 ∨ 1 < s.activeWorkers
    · rw [if_pos slow]
      exact ⟨rfl, phase.2.1⟩
    · rw [if_neg slow]
      refine ⟨rfl, phase.2.1, ?_⟩
      simp only [ActiveWorkers.setDeque]
      omega

/-- The initial frame's strand is taken off the counter. -/
theorem ActiveInv.root_gone {s : ActiveWorkers} (inv : ActiveInv s) (exiting : s.deque 0 = .exiting) :
    DequesOk s.tree (fun g => if g = 0 then .gone else s.deque g) s.thieves ∧
      totalWeight s.tree (fun g => if g = 0 then .gone else s.deque g) + 1 =
        totalWeight s.tree s.deque := by
  obtain ⟨running, made, -⟩ := inv.root_exiting exiting
  have frame := inv.deques.frames 0
  have gone : DequeOk 0 (s.tree.frame 0) .gone s.thieves :=
    ⟨fun _ notGone => absurd rfl notGone, fun _ => ⟨frame.rootKind rfl, .inl running⟩,
      fun isExiting => DequeState.noConfusion isExiting, frame.stealing, frame.root, frame.rootKind,
      frame.parent⟩
  refine ⟨inv.deques.of_setDeque made gone, ?_⟩
  have weight := totalWeight_setDeque s.deque .gone made
  rw [running, exiting] at weight
  have weights : strandWeight (.running []) .exiting = 1 ∧ strandWeight (.running []) .gone = 0 := by
    decide
  omega

theorem ActiveInv.of_fastDecrement {s : ActiveWorkers} (inv : ActiveInv s) (fast : s.exit = .fast) :
    ActiveInv { ((s.setDeque 0 .gone).decrement).check
        ((s.setDeque 0 .gone).decrement.activeWorkers = 0) .activeWorkers with
      exitFrame := none, exit := .returned false } := by
  have phase := inv.phase
  unfold PhaseOk at phase
  rw [fast] at phase
  obtain ⟨exiting, quiet, one⟩ := phase
  obtain ⟨deques, weight⟩ := inv.root_gone exiting
  have zero : (s.setDeque 0 .gone).decrement.activeWorkers = 0 := by
    simp only [ActiveWorkers.decrement, ActiveWorkers.setDeque]
    omega
  have checked : ((s.setDeque 0 .gone).decrement).check
      ((s.setDeque 0 .gone).decrement.activeWorkers = 0) .activeWorkers =
        (s.setDeque 0 .gone).decrement := by
    rw [zero]
    rfl
  rw [checked]
  have count := inv.count
  refine ⟨inv.tree, deques, inv.nodup, ?_, ⟨rfl, quiet, zero⟩, inv.failures⟩
  simp only [ActiveWorkers.decrement, ActiveWorkers.setDeque]
  omega

theorem ActiveInv.of_suspendReturn {s : ActiveWorkers} (inv : ActiveInv s)
    (suspending : s.exit = .suspending) :
    ActiveInv { s with exitFrame := some 0, syncMaster := some 0, exit := .exposed } := by
  have phase := inv.phase
  unfold PhaseOk at phase
  rw [suspending] at phase
  exact ⟨inv.tree, inv.deques, inv.nodup, inv.count, ⟨phase.1, phase.2, rfl, rfl⟩, inv.failures⟩

theorem ActiveInv.of_decrementInitial {s : ActiveWorkers} (inv : ActiveInv s)
    (exposed : s.exit = .exposed) : ActiveInv { s.terminate 0 with exit := .suspended } := by
  have phase := inv.phase
  unfold PhaseOk at phase
  rw [exposed] at phase
  obtain ⟨exiting, ⟨noPushers, noPushes⟩, exitFrame, syncMaster⟩ := phase
  obtain ⟨deques, weight⟩ := inv.root_gone exiting
  have count := inv.count
  unfold ActiveWorkers.terminate ActiveWorkers.decrement ActiveWorkers.setDeque
  dsimp only
  by_cases last : s.activeWorkers - 1 = 0
  · rw [if_pos last]
    refine ⟨inv.tree, deques, inv.nodup, by dsimp only; omega,
      ⟨rfl, ⟨?_, ?_⟩, exitFrame, syncMaster⟩, inv.failures⟩
    · simp [noPushers, noPushes, last]
    · simp [noPushes]
  · rw [if_neg last]
    refine ⟨inv.tree, deques, inv.nodup, by dsimp only; omega,
      ⟨rfl, ⟨?_, ?_⟩, exitFrame, syncMaster⟩, inv.failures⟩
    · simp [noPushers, noPushes, last]
    · simp [noPushes]

theorem ActiveInv.of_resumeInitial {s : ActiveWorkers} (inv : ActiveInv s)
    (suspended : s.exit = .suspended) (pushed : s.pushes ≠ []) :
    ActiveInv { s.check (s.activeWorkers = 0) .activeWorkers with
      exitFrame := none, exit := .returned true } := by
  have phase := inv.phase
  unfold PhaseOk at phase
  rw [suspended] at phase
  obtain ⟨gone, ⟨lengths, workers⟩, -, -⟩ := phase
  have some : 0 < s.pushes.length := List.length_pos_iff.2 pushed
  have zero : s.activeWorkers = 0 := by
    by_contra more
    rw [if_neg more] at lengths
    omega
  have checked : s.check (s.activeWorkers = 0) .activeWorkers = s := by
    rw [zero]
    rfl
  rw [if_pos zero] at lengths
  rw [checked]
  refine ⟨inv.tree, inv.deques, inv.nodup, inv.count, ⟨gone, ⟨?_, ?_⟩, zero⟩, inv.failures⟩
  · exact List.length_eq_zero_iff.1 (by dsimp only; omega)
  · have single : s.pushes.length = 1 := by omega
    obtain ⟨worker, single⟩ := List.length_eq_one_iff.1 single
    have isZero := workers worker (by simp [single])
    simp [single, isZero]

/-! ### Every step -/

theorem ActiveInv.of_initial : ActiveInv .initial := by
  have strands : ∀ f, (SpawnTree.initial.frame f).parent = none ∧
      (SpawnTree.initial.frame f).isCallChild = false ∧
      (f = 0 → (SpawnTree.initial.frame f).strand = .running []) := by
    intro f
    by_cases root : f = 0 <;> simp [SpawnTree.initial, root, TreeFrame.absent]
  refine ⟨.of_initial, ⟨fun f => ?_, fun _ _ => rfl⟩, List.nodup_nil, rfl, ?_, ?_⟩
  · obtain ⟨parent, isCallChild, running⟩ := strands f
    refine .of_active (fun stealing => ?_) (fun root => ?_) (fun _ => isCallChild) (fun p link => ?_)
    · simp [ActiveWorkers.initial] at stealing
    · simp only [ActiveWorkers.initial]
      simp [running root]
    · simp only [ActiveWorkers.initial] at link
      simp [parent] at link
  · exact ⟨by simp [ActiveWorkers.initial], ⟨rfl, rfl⟩, rfl⟩
  · simp [ActiveWorkers.initial]

theorem ActiveInv.of_step {s s' : ActiveWorkers} {label : ActiveLabel} (inv : ActiveInv s)
    (taken : activeWorkersStep s label = some s') : ActiveInv s' := by
  cases label with
  | tree label => exact inv.of_tree taken
  | increment f =>
      simp only [activeWorkersStep] at taken
      split at taken
      · simp at taken
      split at taken
      · rename_i callers running
        split at taken
        · rename_i free
          cases taken
          exact inv.of_increment running free.1 free.2
        · simp at taken
      · simp at taken
  | suspend f =>
      simp only [activeWorkersStep] at taken
      split at taken
      · simp at taken
      split at taken
      · rename_i callers running
        split at taken
        · rename_i active
          cases taken
          exact inv.of_setDeque running (by simp [active]) (by simp)
        · simp at taken
      · simp at taken
  | makeResumable f =>
      simp only [activeWorkersStep] at taken
      split at taken
      · simp at taken
      split at taken
      · rename_i suspended
        cases taken
        obtain ⟨callers, running⟩ :=
          (inv.deques.frames f).onDeque (by simp [suspended]) (by simp [suspended])
        exact inv.of_setDeque running (by simp [suspended]) (by simp)
      · simp at taken
  | jump f =>
      simp only [activeWorkersStep] at taken
      split at taken
      · simp at taken
      split at taken
      · rename_i resumable
        cases taken
        obtain ⟨callers, running⟩ :=
          (inv.deques.frames f).onDeque (by simp [resumable]) (by simp [resumable])
        exact inv.of_setDeque running (by simp [resumable]) (by simp)
      · simp at taken
  | resumeSuspended f =>
      simp only [activeWorkersStep] at taken
      split at taken
      · simp at taken
      split at taken
      · rename_i suspended
        cases taken
        obtain ⟨callers, running⟩ :=
          (inv.deques.frames f).onDeque (by simp [suspended]) (by simp [suspended])
        exact inv.of_setDeque running (by simp [suspended]) (by simp)
      · simp at taken
  | handOff f g =>
      simp only [activeWorkersStep] at taken
      split at taken
      · simp at taken
      split at taken
      · rename_i deques
        split at taken
        · rename_i running
          split at taken
          · rename_i future
            cases taken
            exact inv.of_handOff deques.1 deques.2 running future
          · simp at taken
        · cases taken
          exact ⟨inv.tree, inv.deques, inv.nodup, inv.count,
            inv.phase.of_count (.inl rfl) ⟨rfl, rfl, rfl, rfl, rfl⟩ (.inl rfl),
            List.forall_mem_cons.2 ⟨rfl, inv.failures⟩⟩
        · simp at taken
      · simp at taken
  | handOffDecrement g =>
      simp only [activeWorkersStep] at taken
      split at taken
      · simp at taken
      split at taken
      · rename_i handed
        cases taken
        exact inv.of_handOffDecrement handed
      · simp at taken
  | decrement f =>
      simp only [activeWorkersStep] at taken
      split at taken
      · simp at taken
      split at taken
      · rename_i returned
        cases taken
        exact inv.of_decrement returned.1 returned.2
      · simp at taken
  | push f =>
      simp only [activeWorkersStep] at taken
      split at taken
      · simp at taken
      split at taken
      · rename_i pusher
        cases taken
        exact (inv.of_push pusher).1
      · simp at taken
  | returnFromInitial worker =>
      simp only [activeWorkersStep] at taken
      split at taken
      · simp at taken
      split at taken
      · rename_i returns
        cases taken
        exact inv.of_returnFromInitial worker returns.1 returns.2.2.1 returns.2.2.2
      · simp at taken
  | fastDecrement =>
      simp only [activeWorkersStep] at taken
      split at taken
      · simp at taken
      split at taken
      · rename_i fast
        cases taken
        exact inv.of_fastDecrement fast
      · simp at taken
  | suspendReturn =>
      simp only [activeWorkersStep] at taken
      split at taken
      · simp at taken
      split at taken
      · rename_i suspending
        cases taken
        exact inv.of_suspendReturn suspending
      · simp at taken
  | decrementInitial =>
      simp only [activeWorkersStep] at taken
      split at taken
      · simp at taken
      split at taken
      · rename_i exposed
        cases taken
        exact inv.of_decrementInitial exposed
      · simp at taken
  | resumeInitial =>
      simp only [activeWorkersStep] at taken
      split at taken
      · simp at taken
      split at taken
      · rename_i pushed
        cases taken
        exact inv.of_resumeInitial pushed.1 pushed.2
      · simp at taken

theorem activeInv_reachable {s : ActiveWorkers} (reachable : activeWorkersMachine.Reachable s) :
    ActiveInv s := by
  apply reachable.invariant
  · rintro _ rfl
    exact .of_initial
  · exact fun _ _ _ _ inv taken => inv.of_step taken

/-- The steps that change the counter. -/
theorem activeWorkers_changes {s s' : ActiveWorkers} {label : ActiveLabel}
    (taken : activeWorkersStep s label = some s') :
    s'.activeWorkers = s.activeWorkers ∨ (∃ f, label = .increment f) ∨
      (∃ g, label = .handOffDecrement g) ∨ (∃ f, label = .decrement f) ∨
      label = .decrementInitial ∨ label = .fastDecrement := by
  have checked : ∀ (u : ActiveWorkers) (holds : Bool) (assertion : ActiveAssert),
      (u.check holds assertion).activeWorkers = u.activeWorkers := by
    intro u holds assertion
    cases holds <;> rfl
  cases label with
  | increment f => exact .inr (.inl ⟨f, rfl⟩)
  | handOffDecrement g => exact .inr (.inr (.inl ⟨g, rfl⟩))
  | decrement f => exact .inr (.inr (.inr (.inl ⟨f, rfl⟩)))
  | decrementInitial => exact .inr (.inr (.inr (.inr (.inl rfl))))
  | fastDecrement => exact .inr (.inr (.inr (.inr (.inr rfl))))
  | tree label =>
      refine .inl ?_
      simp only [activeWorkersStep, Option.ite_none_left_eq_some, Option.ite_none_right_eq_some,
        Option.map_eq_some_iff] at taken
      obtain ⟨-, -, t', -, rfl⟩ := taken
      cases label <;> rfl
  | suspend f | makeResumable f | jump f | resumeSuspended f | handOff f g | push f
  | returnFromInitial worker | suspendReturn | resumeInitial =>
      refine .inl ?_
      simp only [activeWorkersStep] at taken
      grind [ActiveWorkers.setDeque, ActiveWorkers.pushExitFrame]

/-- Without a suspension the exit frame is never pushed. -/
theorem ActiveInv.quiet {s : ActiveWorkers} (inv : ActiveInv s) (notSuspended : s.exit ≠ .suspended)
    (notReturned : s.exit ≠ .returned true) : s.pushers = [] ∧ s.pushes = [] := by
  have phase := inv.phase
  unfold PhaseOk ActiveWorkers.Quiet at phase
  cases exit : s.exit with
  | before =>
      rw [exit] at phase
      exact phase.2.1
  | fast =>
      rw [exit] at phase
      exact phase.2.1
  | suspending =>
      rw [exit] at phase
      exact phase.2
  | exposed =>
      rw [exit] at phase
      exact phase.2.1
  | suspended => exact absurd exit notSuspended
  | returned suspended =>
      cases suspended with
      | true => exact absurd exit notReturned
      | false =>
          rw [exit] at phase
          exact phase.2.1

/-- After a suspension it is pushed once, when the counter is 0. -/
theorem ActiveInv.pushed_once {s : ActiveWorkers} (inv : ActiveInv s)
    (suspended : s.exit = .suspended ∨ s.exit = .returned true) :
    s.pushers.length + s.pushes.length = (if s.activeWorkers = 0 then 1 else 0) ∧
      ∀ worker ∈ s.pushes, worker = 0 := by
  have phase := inv.phase
  unfold PhaseOk at phase
  rcases suspended with exit | exit <;> rw [exit] at phase
  · exact phase.2.1
  · obtain ⟨-, ⟨noPushers, pushed⟩, zero⟩ := phase
    simp [noPushers, pushed, zero]

theorem ActiveInv.zero_of_returned {s : ActiveWorkers} (inv : ActiveInv s) {suspended : Bool}
    (returned : s.exit = .returned suspended) : s.activeWorkers = 0 := by
  have phase := inv.phase
  unfold PhaseOk at phase
  rw [returned] at phase
  cases suspended
  · exact phase.2.2
  · exact phase.2.2

theorem terminate_zero {s : ActiveWorkers} {f : Nat} (zero : (s.terminate f).activeWorkers = 0) :
    (s.terminate f).pushers = f :: s.pushers ∧ (s.terminate f).exitFrame = s.exitFrame := by
  unfold ActiveWorkers.terminate at zero ⊢
  dsimp only at zero ⊢
  split at zero
  · rename_i last
    rw [if_pos last]
    exact ⟨rfl, rfl⟩
  · rename_i more
    exact absurd zero more

theorem ActiveInv.no_pushers {s : ActiveWorkers} (inv : ActiveInv s) (before : s.activeWorkers ≠ 0) :
    s.pushers = [] := by
  by_contra pushers
  exact before (inv.pushing pushers).2.2.2.2.2

/-- The step that brings the counter to 0. -/
theorem ActiveInv.last_decrement {s s' : ActiveWorkers} {label : ActiveLabel} (inv : ActiveInv s)
    (taken : activeWorkersStep s label = some s') (before : s.activeWorkers ≠ 0)
    (zero : s'.activeWorkers = 0) :
    (∃ f, label = .decrement f ∧ s.exitFrame = some 0 ∧ s'.pushers = [f]) ∨
      (label = .decrementInitial ∧ s'.pushers = [0]) ∨ label = .fastDecrement := by
  have count := inv.count
  rcases activeWorkers_changes taken with
    same | ⟨f, rfl⟩ | ⟨g, rfl⟩ | ⟨f, rfl⟩ | rfl | rfl
  · exact absurd (same ▸ zero) before
  · simp only [activeWorkersStep] at taken
    grind [ActiveWorkers.increment]
  · simp only [activeWorkersStep, Option.ite_none_left_eq_some, Option.ite_none_right_eq_some,
      Option.some.injEq] at taken
    obtain ⟨-, handed, rfl⟩ := taken
    -- The resumed strand still counts.
    have inv' := inv.of_handOffDecrement handed
    obtain ⟨callers, running⟩ :=
      (inv.deques.frames g).onDeque (by simp [handed]) (by simp [handed])
    have made : g < s.tree.frames := inv.tree.made (by simp [running])
    have counts : strandWeight (s.tree.frame g).strand ((s.setDeque g .active).deque g) ≤
        totalWeight s.tree (s.setDeque g .active).deque := weight_le_total _ made
    have active : (s.setDeque g .active).deque g = .active := by simp [ActiveWorkers.setDeque]
    have one : 1 ≤ strandWeight (s.tree.frame g).strand .active :=
      one_le_weight (by rw [running]; trivial) (by simp)
    rw [active] at counts
    have count' := inv'.count
    rw [zero] at count'
    have sameTree : (s.setDeque g .active).decrement.tree = s.tree := rfl
    have sameDeque : (s.setDeque g .active).decrement.deque = (s.setDeque g .active).deque := rfl
    rw [sameTree, sameDeque] at count'
    omega
  · simp only [activeWorkersStep, Option.ite_none_left_eq_some, Option.ite_none_right_eq_some,
      Option.some.injEq] at taken
    obtain ⟨-, ⟨strand, active⟩, rfl⟩ := taken
    obtain ⟨pushers, exitFrame⟩ := terminate_zero zero
    rw [inv.no_pushers before] at pushers
    have pushing := (inv.of_decrement strand active).pushing (by simp [pushers])
    exact .inl ⟨f, rfl, exitFrame ▸ pushing.2.1, pushers⟩
  · simp only [activeWorkersStep, Option.ite_none_left_eq_some, Option.ite_none_right_eq_some,
      Option.some.injEq] at taken
    obtain ⟨-, -, rfl⟩ := taken
    have pushers := (terminate_zero zero).1
    rw [inv.no_pushers before] at pushers
    exact .inr (.inl ⟨rfl, pushers⟩)
  · exact .inr (.inr rfl)

/-- In every run, `active_workers` is the number of strands that have not terminated, apart from a thief
    between its increment and its steal and a hand-off before its decrement. The exit frame is pushed if
    and only if the initial frame's return suspended, to worker 0 and once, by the worker whose decrement
    brings the counter to 0, when no strand is left; no assertion about the termination fails. -/
theorem active_workers_exact {s : ActiveWorkers} (reachable : activeWorkersMachine.Reachable s) :
    s.activeWorkers = s.liveStrands.card + s.handedDeques.card + s.thieves.length ∧
      (.exitFrame ∉ s.failures ∧ .activeWorkers ∉ s.failures) ∧
      (s.exit ≠ .suspended → s.exit ≠ .returned true → s.pushers = [] ∧ s.pushes = []) ∧
      (s.exit = .suspended ∨ s.exit = .returned true →
        s.pushers.length + s.pushes.length = (if s.activeWorkers = 0 then 1 else 0) ∧
          ∀ worker ∈ s.pushes, worker = 0) ∧
      (s.pushers ≠ [] ∨ s.pushes ≠ [] → s.liveStrands = ∅) ∧
      (s.failures = [] → ∀ f ∈ s.pushers,
        ∃ s', activeWorkersStep s (.push f) = some s' ∧ s'.pushes = [0]) ∧
      (∀ suspended, s.exit = .returned suspended → s.activeWorkers = 0) ∧
      ∀ label s', activeWorkersStep s label = some s' → s.activeWorkers ≠ 0 → s'.activeWorkers = 0 →
        (∃ f, label = .decrement f ∧ s.exitFrame = some 0 ∧ s'.pushers = [f]) ∨
          (label = .decrementInitial ∧ s'.pushers = [0]) ∨ label = .fastDecrement := by
  have inv := activeInv_reachable reachable
  have count := inv.count
  rw [totalWeight_eq] at count
  refine ⟨by rw [count]; push_cast; rfl, ⟨fun failed => ?_, fun failed => ?_⟩, ?_, ?_, ?_, ?_, ?_, ?_⟩
  · exact ActiveAssert.noConfusion (inv.failures _ failed)
  · exact ActiveAssert.noConfusion (inv.failures _ failed)
  · exact inv.quiet
  · exact inv.pushed_once
  · intro pushed
    apply Finset.card_eq_zero.1
    have zero : s.activeWorkers = 0 := by
      by_contra more
      by_cases suspended : s.exit = .suspended ∨ s.exit = .returned true
      · have lengths := (inv.pushed_once suspended).1
        rw [if_neg more] at lengths
        have none : s.pushers = [] ∧ s.pushes = [] :=
          ⟨List.length_eq_zero_iff.1 (by omega), List.length_eq_zero_iff.1 (by omega)⟩
        exact pushed.elim (fun some => some none.1) (fun some => some none.2)
      · have none := inv.quiet (fun exit => suspended (.inl exit)) (fun exit => suspended (.inr exit))
        exact pushed.elim (fun some => some none.1) (fun some => some none.2)
    omega
  · intro noFailures f pusher
    refine ⟨s.pushExitFrame f, ?_, (inv.of_push pusher).2⟩
    simp [activeWorkersStep, noFailures, pusher]
  · exact fun _ returned => inv.zero_of_returned returned
  · exact fun _ _ taken before zero => inv.last_decrement taken before zero

/-- A future is stolen from, the initial frame returns while it runs, and the future's return pushes the
    exit frame. -/
def exitFrameTrace : List ActiveLabel :=
  [.tree (.invoke 0 .future), .increment 0, .tree (.steal 0), .tree (.resume 0), .returnFromInitial 0,
    .suspendReturn, .decrementInitial, .tree (.spawnReturn 1), .decrement 1, .push 1, .resumeInitial]

theorem active_workers_exact_future :
    (activeWorkersMachine.after .initial exitFrameTrace).exit = .returned true ∧
      (activeWorkersMachine.after .initial exitFrameTrace).pushes = [0] ∧
      (activeWorkersMachine.after .initial exitFrameTrace).activeWorkers = 0 := by
  have start : activeWorkersMachine.Reachable .initial := .start rfl
  have returned : (activeWorkersMachine.after .initial exitFrameTrace).exit = .returned true := by
    decide
  exact ⟨returned, by decide,
    (active_workers_exact (start.after exitFrameTrace)).2.2.2.2.2.2.1 true returned⟩

end CilkL
