/-
Module: CilkL.Library.DoublyLinked
Layer: Library
Purpose: Doubly linked lists in a memory of nodes. `DoublyLinked` says of every way to split a list of nodes
  at one of them that the node's links are its neighbours, so a node that leaves from any position is one
  case. The lemmas say how an append and an unlink move along the list, that a walk along the left links
  from the last node meets the nodes in reverse order and no others, and that the two links are inverse.
Imports: Mathlib.Data.List.Induction, Mathlib.Data.List.Nodup
Trusted boundary: none
Main exports: DoublyLinked, LeftWalk, DoublyLinked.push, DoublyLinked.unlink, DoublyLinked.leftWalk_iff,
  DoublyLinked.left_eq_some_iff, DoublyLinked.right_eq_some_iff
Open obligations: none
-/
import Mathlib.Data.List.Induction
import Mathlib.Data.List.Nodup

namespace CilkL

variable {ν : Type*} {left right left' right' : ν → Option ν} {nodes before after : List ν} {x y : ν}

/-- The nodes are different, and each links to its neighbours in the list, or to nothing at an end. -/
structure DoublyLinked (left right : ν → Option ν) (nodes : List ν) : Prop where
  nodup : nodes.Nodup
  left_eq : ∀ before x after, nodes = before ++ x :: after → left x = before.getLast?
  right_eq : ∀ before x after, nodes = before ++ x :: after → right x = after.head?

/-- A walk along `left` from a first pointer meets these nodes and then ends. -/
def LeftWalk (left : ν → Option ν) : Option ν → List ν → Prop
  | start, [] => start = none
  | start, x :: xs => start = some x ∧ LeftWalk left (left x) xs

/-- A walk meets one list of nodes only. -/
theorem LeftWalk.unique {start : Option ν} {xs ys : List ν} (one : LeftWalk left start xs)
    (two : LeftWalk left start ys) : xs = ys := by
  induction xs generalizing start ys with
  | nil =>
      cases ys with
      | nil => rfl
      | cons y ys => exact nomatch one.symm.trans two.1
  | cons x xs ih =>
      cases ys with
      | nil => exact nomatch one.1.symm.trans two
      | cons y ys =>
          obtain rfl : x = y := Option.some.inj (one.1.symm.trans two.1)
          rw [ih one.2 two.2]

/-- A split of a list behind which one node was put: at that node, or at a node of the list. -/
theorem split_append_singleton (split : nodes ++ [y] = before ++ x :: after) :
    (nodes = before ∧ y = x ∧ after = []) ∨
      ∃ rest, nodes = before ++ x :: rest ∧ after = rest ++ [y] := by
  rcases List.eq_nil_or_concat after with rfl | ⟨rest, last, rfl⟩
  · obtain ⟨same, isNew⟩ := List.append_inj' split rfl
    exact .inl ⟨same, List.singleton_inj.mp isNew, rfl⟩
  · rw [List.concat_eq_append, ← List.cons_append, ← List.append_assoc] at split
    obtain ⟨same, isNew⟩ := List.append_inj' split rfl
    exact .inr ⟨rest, same, by rw [List.concat_eq_append, List.singleton_inj.mp isNew]⟩

/-- A split of a list out of which one node was taken: at a node behind it, or at a node in front. -/
theorem split_append {front back : List ν} (split : front ++ back = before ++ x :: after) :
    (∃ rest, before = front ++ rest ∧ back = rest ++ x :: after) ∨
      ∃ rest, front = before ++ x :: rest ∧ after = rest ++ back := by
  rcases List.append_eq_append_iff.mp split with ⟨rest, isBefore, isBack⟩ | ⟨rest, isFront, isAfter⟩
  · exact .inl ⟨rest, isBefore, isBack⟩
  · cases rest with
    | nil => exact .inl ⟨[], by simpa using isFront.symm, by simpa using isAfter.symm⟩
    | cons z rest =>
        obtain ⟨rfl, isRest⟩ := List.cons.inj isAfter
        exact .inr ⟨rest, isFront, isRest⟩

/-- The node a list was split at is not on either side. -/
theorem not_mem_of_nodup_split (nodup : (before ++ x :: after).Nodup) : x ∉ before ∧ x ∉ after := by
  obtain ⟨-, nodupRight, different⟩ := List.nodup_append.mp nodup
  exact ⟨fun isBefore => different x isBefore x List.mem_cons_self rfl, (List.nodup_cons.mp nodupRight).1⟩

/-- The last node of a list is none of those in front of another one. -/
theorem getLast?_ne_of_nodup (nodup : (before ++ x :: y :: after).Nodup) :
    (before ++ x :: y :: after).getLast? ≠ some x := by
  intro isLast
  have later : x ∈ y :: after := List.mem_of_getLast? (by simpa using isLast)
  exact (not_mem_of_nodup_split nodup).2 later

/-- The first node of a list is none of those behind another one. -/
theorem head?_ne_of_nodup (nodup : (y :: before ++ x :: after).Nodup) :
    (y :: before ++ x :: after).head? ≠ some x := by
  intro isFirst
  obtain rfl : y = x := by simpa using isFirst
  exact (not_mem_of_nodup_split nodup).1 List.mem_cons_self

namespace DoublyLinked

/-- The empty list is linked in every memory. -/
theorem nil : DoublyLinked left right [] :=
  ⟨List.nodup_nil, by simp, by simp⟩

/-- Only the links of the nodes matter. -/
theorem congr (linked : DoublyLinked left right nodes) (sameLeft : ∀ a ∈ nodes, left' a = left a)
    (sameRight : ∀ a ∈ nodes, right' a = right a) : DoublyLinked left' right' nodes where
  nodup := linked.nodup
  left_eq before x after split := by
    rw [sameLeft x (by simp [split])]
    exact linked.left_eq before x after split
  right_eq before x after split := by
    rw [sameRight x (by simp [split])]
    exact linked.right_eq before x after split

/-- A node appended behind the last one. -/
theorem push [DecidableEq ν] (linked : DoublyLinked left right nodes) (fresh : y ∉ nodes)
    (newLeft : left' y = nodes.getLast?) (newRight : right' y = none)
    (isLeft : ∀ a ∈ nodes, left' a = left a)
    (isRight : ∀ a ∈ nodes, right' a = if nodes.getLast? = some a then some y else right a) :
    DoublyLinked left' right' (nodes ++ [y]) where
  nodup := by
    rw [List.nodup_append]
    refine ⟨linked.nodup, List.nodup_singleton y, ?_⟩
    rintro a isNode b isNew rfl
    exact fresh (List.mem_singleton.mp isNew ▸ isNode)
  left_eq before z after split := by
    rcases split_append_singleton split with ⟨rfl, rfl, -⟩ | ⟨rest, rfl, -⟩
    · exact newLeft
    · rw [isLeft z (by simp)]
      exact linked.left_eq before z rest rfl
  right_eq before z after split := by
    rcases split_append_singleton split with ⟨rfl, rfl, rfl⟩ | ⟨rest, rfl, rfl⟩
    · exact newRight
    · rw [isRight z (by simp)]
      cases rest with
      | nil => simp
      | cons next rest =>
          rw [if_neg (getLast?_ne_of_nodup linked.nodup)]
          exact linked.right_eq before z (next :: rest) rfl

/-- A node taken out from any position, with its neighbours linked to each other. -/
theorem unlink [DecidableEq ν] {front back : List ν}
    (linked : DoublyLinked left right (front ++ x :: back))
    (isLeft : ∀ a ∈ front ++ back, left' a = if back.head? = some a then front.getLast? else left a)
    (isRight : ∀ a ∈ front ++ back, right' a = if front.getLast? = some a then back.head? else right a) :
    DoublyLinked left' right' (front ++ back) where
  nodup := linked.nodup.sublist ((List.sublist_cons_self x back).append_left front)
  left_eq before z after split := by
    rw [isLeft z (by simp [split])]
    rcases split_append split with ⟨rest, rfl, rfl⟩ | ⟨rest, rfl, rfl⟩
    · cases rest with
      | nil => simp
      | cons y rest =>
          have behind : (y :: rest ++ z :: after).Nodup :=
            (List.nodup_cons.mp (List.nodup_append.mp linked.nodup).2.1).2
          rw [if_neg (head?_ne_of_nodup behind), linked.left_eq (front ++ x :: y :: rest) z after (by simp)]
          simp
    · -- `z` is in front, so it does not link to the left of what comes behind.
      have elsewhere : z ∉ rest ++ x :: back :=
        (not_mem_of_nodup_split (by simpa using linked.nodup : (before ++ z :: (rest ++ x :: back)).Nodup)).2
      have notFirst : back.head? ≠ some z := fun isFirst =>
        elsewhere (by simp [List.mem_of_head? isFirst])
      rw [if_neg notFirst]
      exact linked.left_eq before z (rest ++ x :: back) (by simp)
  right_eq before z after split := by
    rw [isRight z (by simp [split])]
    rcases split_append split with ⟨rest, rfl, rfl⟩ | ⟨rest, rfl, rfl⟩
    · have elsewhere : z ∉ front ++ x :: rest :=
        (not_mem_of_nodup_split (by simpa using linked.nodup : ((front ++ x :: rest) ++ z :: after).Nodup)).1
      have notLast : front.getLast? ≠ some z := fun isLast =>
        elsewhere (by simp [List.mem_of_getLast? isLast])
      rw [if_neg notLast]
      exact linked.right_eq (front ++ x :: rest) z after (by simp)
    · cases rest with
      | nil => simp
      | cons y rest =>
          have inFront : (before ++ z :: y :: rest).Nodup := (List.nodup_append.mp linked.nodup).1
          rw [if_neg (getLast?_ne_of_nodup inFront),
            linked.right_eq before z (y :: rest ++ x :: back) (by simp)]
          simp

/-- The neighbours of a node in the list. -/
theorem neighbours (linked : DoublyLinked left right (before ++ x :: after)) :
    left x = before.getLast? ∧ right x = after.head? :=
  ⟨linked.left_eq before x after rfl, linked.right_eq before x after rfl⟩

/-- The walk from the end of a prefix meets the prefix in reverse order. -/
theorem leftWalk_prefix (linked : DoublyLinked left right nodes) (split : nodes = before ++ after) :
    LeftWalk left before.getLast? before.reverse := by
  induction before using List.reverseRecOn generalizing after with
  | nil => rfl
  | append_singleton front x ih =>
      rw [List.getLast?_append, List.reverse_append]
      refine ⟨rfl, ?_⟩
      have shorter : nodes = front ++ x :: after := by simpa using split
      rw [linked.left_eq front x after shorter]
      exact ih shorter

/-- The walk from the last node meets the nodes in reverse order, and nothing else. -/
theorem leftWalk_iff (linked : DoublyLinked left right nodes) {xs : List ν} :
    LeftWalk left nodes.getLast? xs ↔ xs = nodes.reverse := by
  have walk : LeftWalk left nodes.getLast? nodes.reverse :=
    linked.leftWalk_prefix (List.append_nil nodes).symm
  exact ⟨fun other => other.unique walk, fun same => same ▸ walk⟩

/-- The left neighbour of a node is the one whose right neighbour it is. -/
theorem left_eq_some_iff (linked : DoublyLinked left right nodes) (isNode : x ∈ nodes) :
    left x = some y ↔ y ∈ nodes ∧ right y = some x := by
  constructor
  · intro isLeft
    obtain ⟨before, after, rfl⟩ := List.append_of_mem isNode
    rw [linked.neighbours.1] at isLeft
    obtain ⟨front, rfl⟩ := List.getLast?_eq_some_iff.mp isLeft
    refine ⟨by simp, ?_⟩
    exact linked.right_eq front y (x :: after) (by simp)
  · rintro ⟨isNode, isRight⟩
    obtain ⟨before, after, rfl⟩ := List.append_of_mem isNode
    rw [linked.neighbours.2] at isRight
    obtain ⟨back, rfl⟩ := List.head?_eq_some_iff.mp isRight
    rw [linked.left_eq (before ++ [y]) x back (by simp)]
    simp

/-- The right neighbour of a node is the one whose left neighbour it is. -/
theorem right_eq_some_iff (linked : DoublyLinked left right nodes) (isNode : x ∈ nodes) :
    right x = some y ↔ y ∈ nodes ∧ left y = some x := by
  constructor
  · intro isRight
    obtain ⟨before, after, rfl⟩ := List.append_of_mem isNode
    have isFirst : after.head? = some y := linked.neighbours.2.symm.trans isRight
    have mem : y ∈ before ++ x :: after := by simp [List.mem_of_head? isFirst]
    exact ⟨mem, (linked.left_eq_some_iff mem).mpr ⟨isNode, isRight⟩⟩
  · rintro ⟨mem, isLeft⟩
    exact ((linked.left_eq_some_iff mem).mp isLeft).2

end DoublyLinked

end CilkL
