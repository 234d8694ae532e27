/-
# Theory.Traces — reordering commuting operations

Operations act on a state and answer.  Two of them commute when both orders lead to the same state
and give each the same answer.  A sequence whose inversions, measured against a strict order, are all
pairs of commuting operations does what the ordered sequence does: `runAll_eq_sorted`.  The argument
takes the operations in their order and moves each to the front past those that overtook it.

Operations carry a tag, so that answers can be told apart after they were reordered.
-/
import Mathlib.Data.List.Perm.Basic
import Mathlib.Tactic.Common

namespace Cyclone.Theory

set_option autoImplicit false

variable {S A B K : Type}

/-- Both orders end in the same state and answer the same. -/
structure Commutes (act : S → A → S × B) (a b : A) : Prop where
  state : ∀ s, (act (act s a).1 b).1 = (act (act s b).1 a).1
  first : ∀ s, (act s a).2 = (act (act s b).1 a).2
  second : ∀ s, (act (act s a).1 b).2 = (act s b).2

/-- The state after a sequence of tagged operations, and their answers in the order they came. -/
def runAll (act : S → A → S × B) : S → List (A × K) → S × List (B × K)
  | s, [] => (s, [])
  | s, (a, k) :: l =>
    let rest := runAll act (act s a).1 l
    (rest.1, ((act s a).2, k) :: rest.2)

variable {act : S → A → S × B}

theorem runAll_append (s : S) (l l' : List (A × K)) :
    runAll act s (l ++ l') =
      ((runAll act (runAll act s l).1 l').1,
        (runAll act s l).2 ++ (runAll act (runAll act s l).1 l').2) := by
  induction l generalizing s with
  | nil => rfl
  | cons x l ih =>
    rw [List.cons_append, runAll, ih]
    rfl

/-- The same state and, up to order, the same tagged answers. -/
def SameOutcome (r r' : S × List (B × K)) : Prop := r.1 = r'.1 ∧ r.2.Perm r'.2

theorem SameOutcome.trans {r r' r'' : S × List (B × K)} (first : SameOutcome r r')
    (second : SameOutcome r' r'') : SameOutcome r r'' :=
  ⟨first.1.trans second.1, first.2.trans second.2⟩

theorem SameOutcome.cons {s : S} {l l' : List (A × K)} (x : A × K)
    (same : SameOutcome (runAll act (act s x.1).1 l) (runAll act (act s x.1).1 l')) :
    SameOutcome (runAll act s (x :: l)) (runAll act s (x :: l')) :=
  ⟨same.1, same.2.cons _⟩

variable {x : A × K}

/-- Two neighbours that commute. -/
theorem runAll_swap {y : A × K} (commute : Commutes act x.1 y.1) (s : S) (l : List (A × K)) :
    SameOutcome (runAll act s (x :: y :: l)) (runAll act s (y :: x :: l)) := by
  simp only [runAll]
  rw [commute.state s, commute.first s, commute.second s]
  exact ⟨rfl, List.Perm.swap _ _ _⟩

/-- An operation moved to the front, past operations that commute with it. -/
theorem runAll_to_front {p : List (A × K)} (commute : ∀ y ∈ p, Commutes act y.1 x.1) (s : S)
    (q : List (A × K)) :
    SameOutcome (runAll act s (p ++ x :: q)) (runAll act s (x :: (p ++ q))) := by
  induction p generalizing s with
  | nil => exact ⟨rfl, .refl _⟩
  | cons y p ih =>
    have moved := (ih (fun z later => commute z (List.mem_cons_of_mem y later))
      (act s y.1).1).cons y
    exact moved.trans (runAll_swap (commute y List.mem_cons_self) s (p ++ q))

/-- **Exchange.** A sequence in which only commuting operations overtake does what the ordered
sequence does. -/
theorem runAll_eq_sorted {lt : A × K → A × K → Prop} (asymm : ∀ x y, lt x y → ¬ lt y x)
    {l l' : List (A × K)} (sorted : l.Pairwise lt) (perm : l'.Perm l)
    (overtakes : l'.Pairwise fun x y => lt x y ∨ Commutes act x.1 y.1) (s : S) :
    SameOutcome (runAll act s l') (runAll act s l) := by
  induction l generalizing l' s with
  | nil =>
    cases perm.eq_nil
    exact ⟨rfl, .refl _⟩
  | cons x l ih =>
    obtain ⟨p, q, rfl⟩ := List.append_of_mem (perm.mem_iff.mpr List.mem_cons_self)
    have rest : (p ++ q).Perm l := (List.perm_middle.symm.trans perm).cons_inv
    obtain ⟨first, sorted⟩ := List.pairwise_cons.mp sorted
    -- whatever stands before the least operation overtook it
    have passed : ∀ y ∈ p, Commutes act y.1 x.1 := by
      intro y before
      rcases (List.pairwise_append.mp overtakes).2.2 y before x List.mem_cons_self with less | commute
      · exact absurd less
          (asymm x y (first y (rest.mem_iff.mp (List.mem_append_left q before))))
      · exact commute
    have others : (p ++ q).Pairwise fun x y => lt x y ∨ Commutes act x.1 y.1 :=
      overtakes.sublist ((List.sublist_cons_self x q).append_left p)
    exact (runAll_to_front passed s q).trans ((ih sorted rest others _).cons x)

end Cyclone.Theory
