/-
Module: CilkL.Proofs.ReducerMap
Layer: Proofs
Purpose: What a reducer map stands for: a view for each key, the identity where there is none. Merging
  two maps multiplies their views in order, whichever object survives.
Imports: CilkL.Runtime.ReducerMap
Trusted boundary: none (fully proved)
Main exports: mapValue, mapValue_none, mapValue_updateView, mapValue_mergeReducerMaps,
  mapValue_repeatedMerge
Open obligations: none
-/
import CilkL.Runtime.ReducerMap

namespace CilkL

variable {κ M : Type} [DecidableEq κ] [Monoid M]

/-- The views of an association list. -/
def views (elems : AList fun _ : κ => M) (key : κ) : M := (elems.lookup key).getD 1

/-- The views a pointer to a map stands for: `NULL` stands for the identities. -/
def mapValue (map : Option (ReducerMap κ M)) : κ → M :=
  match map with
  | none => 1
  | some map => views map.elems

@[simp] theorem mapValue_none : mapValue (none : Option (ReducerMap κ M)) = 1 := rfl

theorem views_insert (elems : AList fun _ : κ => M) (key : κ) (view : M) :
    views (elems.insert key view) = Function.update (views elems) key view := by
  funext other
  by_cases same : other = key
  · subst same
    simp [views]
  · simp [views, Function.update, same, AList.lookup_insert_ne same]

/-- An update multiplies one view from the right. -/
theorem mapValue_updateView (map : Option (ReducerMap κ M)) (key : κ) (value : M) :
    mapValue (some (updateView map key value)) = mapValue map * Pi.mulSingle key value := by
  have insert : mapValue (some (updateView map key value)) =
      Function.update (mapValue map) key (mapValue map key * value) := by
    cases map with
    | none => exact views_insert _ key _
    | some map => exact views_insert map.elems key _
  rw [insert]
  funext other
  by_cases same : other = key
  · subst same
    simp
  · simp [same]

/-- Merging one element multiplies its view on the side of the other map. -/
theorem views_mergeElem (kind : MergeKind) (this : AList fun _ : κ => M)
    (other : Sigma fun _ : κ => M) :
    views (mergeElem kind this other) = Function.update (views this) other.1
      (match kind with
        | .intoLeft => views this other.1 * other.2
        | .intoRight => other.2 * views this other.1) := by
  unfold mergeElem
  cases found : this.lookup other.1 <;> cases kind <;>
    simp [views_insert, views, found]

/-- Merging the elements of a list with distinct keys. -/
theorem views_foldl (kind : MergeKind) (entries : List (Sigma fun _ : κ => M))
    (distinct : entries.NodupKeys) (this : AList fun _ : κ => M) (key : κ) :
    views (entries.foldl (mergeElem kind) this) key =
      match kind with
      | .intoLeft => views this key * (entries.dlookup key).getD 1
      | .intoRight => (entries.dlookup key).getD 1 * views this key := by
  induction entries generalizing this with
  | nil => cases kind <;> simp
  | cons entry entries ih =>
      obtain ⟨first, view⟩ := entry
      obtain ⟨fresh, distinct⟩ := List.nodupKeys_cons.1 distinct
      rw [List.foldl_cons, ih distinct, views_mergeElem]
      by_cases same : key = first
      · subst same
        have absent : entries.dlookup key = none := List.dlookup_eq_none.2 fresh
        cases kind <;> simp [absent, List.dlookup_cons_eq]
      · cases kind <;> simp [same, List.dlookup_cons_ne entries ⟨first, view⟩ same]

/-- A merge into either object multiplies the left views by the right ones. -/
theorem mapValue_merge (this other : ReducerMap κ M) (kind : MergeKind) :
    mapValue (some (this.merge other kind)) =
      match kind with
      | .intoLeft => mapValue (some this) * mapValue (some other)
      | .intoRight => mapValue (some other) * mapValue (some this) := by
  funext key
  have fold := views_foldl kind other.elems.entries other.elems.nodupKeys this.elems key
  cases kind <;> exact fold

/-- `merge_reducer_maps` multiplies in order. -/
@[simp] theorem mapValue_mergeReducerMaps (left right : Option (ReducerMap κ M)) :
    mapValue (mergeReducerMaps left right) = mapValue left * mapValue right := by
  rcases left with _ | left <;> rcases right with _ | right
  · simp [mergeReducerMaps]
  · simp [mergeReducerMaps]
  · simp [mergeReducerMaps]
  · simp only [mergeReducerMaps]
    split
    · exact mapValue_merge left right .intoLeft
    · exact mapValue_merge right left .intoRight

/-- `repeated_merge_reducer_maps` multiplies in order, the maps the reduce functions made last. -/
@[simp] theorem mapValue_repeatedMerge (left right : Option (ReducerMap κ M))
    (created : List (ReducerMap κ M)) :
    mapValue (repeatedMergeReducerMaps left right created) =
      mapValue left * mapValue right * (created.map fun map => mapValue (some map)).prod := by
  induction created generalizing left right with
  | nil => simp [repeatedMergeReducerMaps]
  | cons new created ih => simp [repeatedMergeReducerMaps, ih, mul_assoc]

end CilkL
