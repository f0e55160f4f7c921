/-
Module: CilkL.Library.HalfLinkedList
Layer: Library
Purpose: The list behind a tail that inserters exchange. An inserter swaps its node into the tail and
  only later stores the `next` field of the node it found there, so a walker sees a list some of whose
  links are still in flight. `HalfLinked` says that a list of nodes is threaded through `next` up to the
  links in flight; the lemmas say how an exchange, a store and a read move along it.
Imports: Mathlib.Data.List.Basic
Trusted boundary: none
Main exports: HalfLinked, HalfLinked.congr, HalfLinked.exchange, HalfLinked.store, HalfLinked.read
Open obligations: none
-/
import Mathlib.Data.List.Basic

namespace CilkL

variable {ν : Type*} {next next' : ν → Option ν} {inFlight inFlight' : ν → ν → Prop}

/-- The nodes are threaded through `next` in this order, and the last one has no successor. A link is
    stored and no longer in flight, or in flight and not stored yet. -/
def HalfLinked (next : ν → Option ν) (inFlight : ν → ν → Prop) : List ν → Prop
  | [] => True
  | [a] => next a = none
  | a :: b :: rest =>
      (next a = some b ∧ (∀ c, ¬ inFlight c b) ∨ next a = none ∧ inFlight a b) ∧
        HalfLinked next inFlight (b :: rest)

/-- Only the `next` fields of the nodes and the links in flight towards them matter. -/
theorem HalfLinked.congr {nodes : List ν} (linked : HalfLinked next inFlight nodes)
    (sameNext : ∀ a ∈ nodes, next' a = next a)
    (sameFlight : ∀ a, ∀ b ∈ nodes.tail, inFlight' a b ↔ inFlight a b) :
    HalfLinked next' inFlight' nodes := by
  induction nodes with
  | nil => trivial
  | cons a nodes ih =>
      cases nodes with
      | nil =>
          simp only [HalfLinked] at linked ⊢
          rw [sameNext a (by simp)]
          exact linked
      | cons b rest =>
          obtain ⟨link, linked⟩ := linked
          refine ⟨?_, ih linked ?_ ?_⟩
          · have flight : ∀ c, inFlight' c b ↔ inFlight c b := fun c => sameFlight c b (by simp)
            simpa only [sameNext a (by simp), flight] using link
          · exact fun c mem => sameNext c (List.mem_cons_of_mem a mem)
          · exact fun c d mem => sameFlight c d (by simp_all)

/-- Dropping the first node. -/
theorem HalfLinked.of_cons {a : ν} {nodes : List ν} (linked : HalfLinked next inFlight (a :: nodes)) :
    HalfLinked next inFlight nodes := by
  cases nodes with
  | nil => trivial
  | cons b rest => exact linked.2

/-- A walker that finds a successor finds the next node of the list, and its link is stored. -/
theorem HalfLinked.read {a b : ν} {nodes : List ν} (linked : HalfLinked next inFlight (a :: nodes))
    (found : next a = some b) : ∃ rest, nodes = b :: rest ∧ ∀ c, ¬ inFlight c b := by
  cases nodes with
  | nil =>
      simp only [HalfLinked] at linked
      simp [linked] at found
  | cons c rest =>
      rcases linked.1 with ⟨stored, settled⟩ | ⟨unset, -⟩
      · obtain rfl : c = b := Option.some.inj (stored.symm.trans found)
        exact ⟨rest, rfl, settled⟩
      · simp [unset] at found

/-- An exchange appends a fresh node whose link is in flight. -/
theorem HalfLinked.exchange {last x : ν} {nodes : List ν} (linked : HalfLinked next inFlight nodes)
    (tail : nodes.getLast? = some last) (flight : inFlight last x) (fresh : next x = none) :
    HalfLinked next inFlight (nodes ++ [x]) := by
  induction nodes with
  | nil => simp at tail
  | cons a nodes ih =>
      cases nodes with
      | nil =>
          obtain rfl : a = last := by simpa using tail
          exact ⟨.inr ⟨linked, flight⟩, fresh⟩
      | cons b rest => exact ⟨linked.1, ih linked.2 (by simpa using tail)⟩

/-- The node a link in flight comes from is in the list when its target is. -/
theorem HalfLinked.mem_of_inFlight {a b : ν} {nodes : List ν}
    (linked : HalfLinked next inFlight nodes) (flight : inFlight a b)
    (unique : ∀ c, inFlight c b → c = a) (mem : b ∈ nodes.tail) : a ∈ nodes := by
  induction nodes with
  | nil => simp at mem
  | cons c nodes ih =>
      cases nodes with
      | nil => simp at mem
      | cons d rest =>
          rcases List.mem_cons.1 mem with rfl | later
          · rcases linked.1 with ⟨-, settled⟩ | ⟨-, here⟩
            · exact absurd flight (settled a)
            · simp [unique c here]
          · exact List.mem_cons_of_mem c (ih linked.2 later)

/-- Storing the `next` field of the predecessor completes a link in flight. -/
theorem HalfLinked.store {a b : ν} {nodes : List ν} (linked : HalfLinked next inFlight nodes)
    (nodup : nodes.Nodup) (flight : inFlight a b) (unique : ∀ c, inFlight c b → c = a)
    (mem : b ∈ nodes.tail) (stored : next' a = some b) (others : ∀ c, c ≠ a → next' c = next c)
    (settled : ∀ c, ¬ inFlight' c b)
    (sameFlight : ∀ c d, d ≠ b → (inFlight' c d ↔ inFlight c d)) :
    HalfLinked next' inFlight' nodes := by
  induction nodes with
  | nil => trivial
  | cons c nodes ih =>
      cases nodes with
      | nil => simp at mem
      | cons d rest =>
          obtain ⟨link, linked⟩ := linked
          rw [List.nodup_cons] at nodup
          by_cases here : d = b
          · -- The link in flight is the first one; the rest of the list does not contain its source.
            subst here
            obtain rfl : c = a := by
              rcases link with ⟨-, noFlight⟩ | ⟨-, here⟩
              · exact absurd flight (noFlight a)
              · exact unique c here
            refine ⟨.inl ⟨stored, settled⟩, linked.congr ?_ ?_⟩
            · rintro e eMem
              refine others e ?_
              rintro rfl
              exact nodup.1 eMem
            · rintro e e' eMem
              refine sameFlight e e' ?_
              rintro rfl
              exact (List.nodup_cons.1 nodup.2).1 eMem
          · have later : b ∈ rest := by
              rcases List.mem_cons.1 mem with first | later
              · exact absurd first.symm here
              · exact later
            have source := linked.mem_of_inFlight flight unique later
            have notHere : c ≠ a := by
              rintro rfl
              exact nodup.1 source
            refine ⟨?_, ih linked nodup.2 later⟩
            simpa only [others c notHere, sameFlight _ d here] using link

end CilkL
