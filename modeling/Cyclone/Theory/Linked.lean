/-
# Theory.Linked — chains of pointers

`Linked next refs`: following `next` from the first of `refs` gives the others in order and then
stops.  `DoublyLinked next prev refs`: the same, and `prev` goes back the same way.  A node can be put
between two neighbours, and a node can be taken out from between its neighbours.
-/
import Mathlib.Data.List.Nodup
import Mathlib.Logic.Function.Basic

namespace Cyclone.Theory

set_option autoImplicit false

variable {R : Type}

def Linked (next : R → Option R) (refs : List R) : Prop :=
  ∀ k r, refs[k]? = some r → next r = refs[k + 1]?

variable {next next' : R → Option R} {refs front back back' : List R} {r tail new : R}

theorem linked_nil : Linked next [] := by
  intro k r at_
  simp at at_

theorem linked_cons : Linked next (r :: refs) ↔ next r = refs.head? ∧ Linked next refs := by
  constructor
  · intro linked
    exact ⟨(linked 0 r rfl).trans List.head?_eq_getElem?.symm, fun k r' at_ => linked (k + 1) r' at_⟩
  · rintro ⟨first, rest⟩ k r' at_
    cases k with
    | zero =>
      cases at_
      exact first.trans List.head?_eq_getElem?
    | succ k => exact rest k r' at_

theorem linked_singleton (ends : next r = none) : Linked next [r] :=
  linked_cons.mpr ⟨ends, linked_nil⟩

theorem linked_pair (first : next r = some new) (ends : next new = none) :
    Linked next [r, new] :=
  linked_cons.mpr ⟨first, linked_singleton ends⟩

/-- Pointers of other nodes do not matter. -/
theorem Linked.congr (linked : Linked next refs) (same : ∀ r ∈ refs, next' r = next r) :
    Linked next' refs := by
  intro k r at_
  rw [same r (List.mem_of_getElem? at_)]
  exact linked k r at_

theorem Linked.right (linked : Linked next (front ++ back)) : Linked next back := by
  induction front with
  | nil => exact linked
  | cons _ front ih => exact ih (linked_cons.mp linked).2

/-- From a node on, the chain may be another one. -/
theorem Linked.splice (linked : Linked next (front ++ r :: back)) (same : ∀ x ∈ front, next' x = next x)
    (rest : Linked next' (r :: back')) : Linked next' (front ++ r :: back') := by
  induction front with
  | nil => exact rest
  | cons x front ih =>
    obtain ⟨first, linked⟩ := linked_cons.mp linked
    refine linked_cons.mpr ⟨?_, ih linked fun y member => same y (List.mem_cons_of_mem _ member)⟩
    rw [same x List.mem_cons_self, first]
    cases front <;> rfl

/-- The last node is made to point to a new one. -/
theorem Linked.snoc (linked : Linked next refs) (nodup : refs.Nodup)
    (last : refs.getLast? = some tail) (on : next' tail = some new) (ends : next' new = none)
    (same : ∀ r ∈ refs, r ≠ tail → next' r = next r) : Linked next' (refs ++ [new]) := by
  obtain ⟨front, rfl⟩ := List.getLast?_eq_some_iff.mp last
  have other (x : R) (member : x ∈ front) : x ≠ tail :=
    (List.nodup_append.mp nodup).2.2 x member tail (List.mem_singleton.mpr rfl)
  rw [List.append_assoc]
  exact linked.splice (fun x member => same x (List.mem_append_left _ member) (other x member))
    (linked_pair on ends)

/-! ## Both directions -/

structure DoublyLinked (next prev : R → Option R) (refs : List R) : Prop where
  nodup : refs.Nodup
  forward : Linked next refs
  backward : Linked prev refs.reverse

variable {prev : R → Option R} {xs ys : List R} {a b : R}

theorem DoublyLinked.next_eq (linked : DoublyLinked next prev (xs ++ a :: ys)) : next a = ys.head? :=
  (linked_cons.mp linked.forward.right).1

theorem DoublyLinked.prev_eq (linked : DoublyLinked next prev (xs ++ a :: ys)) : prev a = xs.getLast? := by
  have back := linked.backward
  rw [List.reverse_append, List.reverse_cons, List.append_assoc] at back
  rw [← List.head?_reverse]
  exact (linked_cons.mp back.right).1

variable [DecidableEq R]

/-- The pointer of `a` is turned to a new node that points on to where it pointed. -/
theorem Linked.insert (linked : Linked next (xs ++ a :: ys)) (nodup : (xs ++ a :: ys).Nodup)
    (fresh : new ∉ xs ++ a :: ys) :
    Linked (Function.update (Function.update next new ys.head?) a (some new))
      (xs ++ a :: new :: ys) := by
  have unchanged (x : R) (member : x ∈ xs ++ ys) :
      Function.update (Function.update next new ys.head?) a (some new) x = next x := by
    have notA : x ≠ a := by
      rintro rfl
      exact (List.nodup_middle.mp nodup).notMem member
    have notNew : x ≠ new := by
      rintro rfl
      exact fresh (by simp at member ⊢; tauto)
    rw [Function.update_of_ne notA, Function.update_of_ne notNew]
  have other : new ≠ a := by
    rintro rfl
    exact fresh (by simp)
  refine linked.splice (fun x member => unchanged x (List.mem_append_left _ member)) ?_
  refine linked_cons.mpr ⟨Function.update_self .., linked_cons.mpr ⟨?_, ?_⟩⟩
  · rw [Function.update_of_ne other, Function.update_self]
  · exact (linked_cons.mp linked.right).2.congr fun x member =>
      unchanged x (List.mem_append_right _ member)

/-- The pointer of `a` is turned past its neighbour. -/
theorem Linked.remove (linked : Linked next (xs ++ a :: r :: ys)) (nodup : (xs ++ a :: r :: ys).Nodup) :
    Linked (Function.update next a ys.head?) (xs ++ a :: ys) := by
  have unchanged (x : R) (member : x ∈ xs ++ ys) : Function.update next a ys.head? x = next x := by
    refine Function.update_of_ne ?_ _ _
    rintro rfl
    exact (List.nodup_middle.mp nodup).notMem (by simp at member ⊢; tauto)
  refine linked.splice (fun x member => unchanged x (List.mem_append_left _ member)) ?_
  refine linked_cons.mpr ⟨Function.update_self .., ?_⟩
  exact (linked_cons.mp (linked_cons.mp linked.right).2).2.congr fun x member =>
    unchanged x (List.mem_append_right _ member)

namespace DoublyLinked

/-- A new node between two neighbours. -/
theorem insert (linked : DoublyLinked next prev (xs ++ a :: b :: ys))
    (fresh : new ∉ xs ++ a :: b :: ys) :
    DoublyLinked (Function.update (Function.update next new (some b)) a (some new))
      (Function.update (Function.update prev new (some a)) b (some new))
      (xs ++ a :: new :: b :: ys) where
  nodup := by
    have moved : (xs ++ [a] ++ new :: b :: ys).Perm (new :: (xs ++ [a] ++ b :: ys)) :=
      List.perm_middle
    rw [List.append_assoc, List.append_assoc] at moved
    exact moved.nodup_iff.mpr (List.nodup_cons.mpr ⟨fresh, linked.nodup⟩)
  forward := linked.forward.insert linked.nodup fresh
  backward := by
    have flipped : (xs ++ a :: b :: ys).reverse = ys.reverse ++ b :: a :: xs.reverse := by simp
    have back := linked.backward
    have nodup := List.nodup_reverse.mpr linked.nodup
    rw [flipped] at back nodup
    have inserted := back.insert nodup (by rwa [← flipped, List.mem_reverse])
    simpa using inserted

/-- The neighbours of a node are joined. -/
theorem remove (linked : DoublyLinked next prev (xs ++ a :: r :: b :: ys)) :
    DoublyLinked (Function.update next a (some b)) (Function.update prev b (some a))
      (xs ++ a :: b :: ys) where
  nodup := linked.nodup.sublist (by simp)
  forward := linked.forward.remove linked.nodup
  backward := by
    have flipped : (xs ++ a :: r :: b :: ys).reverse = ys.reverse ++ b :: r :: a :: xs.reverse := by
      simp
    have back := linked.backward
    have nodup := List.nodup_reverse.mpr linked.nodup
    rw [flipped] at back nodup
    simpa using back.remove nodup

end DoublyLinked

end Cyclone.Theory
