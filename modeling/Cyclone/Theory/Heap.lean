/-
# Theory.Heap — binary heaps in a list

The children of position `i` are `2 * i + 1` and `2 * i + 2`, and a heap is ordered at `i` when neither
child ranks below it.  `heapify` sinks the element at a position: it trades places with the
lower-ranking child until it ranks below neither.  `heapify_ordered` says what that is worth: if the
order held at every proper descendant of the position, it holds at the position and all its
descendants afterwards, and nothing outside that subtree has moved.
-/
import Mathlib.Data.List.Perm.Basic
import Mathlib.Tactic.Common
import Mathlib.Order.Lattice

namespace Cyclone.Theory

set_option autoImplicit false

variable {A L : Type}

/-! ## Exchange of two elements -/

/-- The list with two places exchanged. -/
def swapAt (l : List A) (i j : Nat) : List A :=
  match l[i]?, l[j]? with
  | some x, some y => (l.set i y).set j x
  | _, _ => l

section SwapAt

variable {l : List A} {i j m : Nat}

theorem swapAt_eq {x y : A} (at_ : l[i]? = some x) (at' : l[j]? = some y) :
    swapAt l i j = (l.set i y).set j x := by
  rw [swapAt, at_, at']

@[simp] theorem length_swapAt (l : List A) (i j : Nat) : (swapAt l i j).length = l.length := by
  unfold swapAt
  split <;> simp

theorem swapAt_perm (l : List A) (i j : Nat) : (swapAt l i j).Perm l := by
  unfold swapAt
  split
  · rename_i x y at_ at'
    obtain ⟨low, rfl⟩ := List.getElem?_eq_some_iff.mp at_
    obtain ⟨low', rfl⟩ := List.getElem?_eq_some_iff.mp at'
    exact List.set_set_perm low low'
  · exact .refl _

theorem getElem?_swapAt_left (low : i < l.length) (low' : j < l.length) :
    (swapAt l i j)[i]? = l[j]? := by
  rw [swapAt_eq (List.getElem?_eq_getElem low) (List.getElem?_eq_getElem low')]
  by_cases same : j = i
  · subst same
    simp [low]
  · rw [List.getElem?_set_ne same]
    simp [low, low']

theorem getElem?_swapAt_right (low : i < l.length) (low' : j < l.length) :
    (swapAt l i j)[j]? = l[i]? := by
  rw [swapAt_eq (List.getElem?_eq_getElem low) (List.getElem?_eq_getElem low')]
  simp [low, low']

theorem getElem?_swapAt_of_ne (ne : m ≠ i) (ne' : m ≠ j) : (swapAt l i j)[m]? = l[m]? := by
  unfold swapAt
  split
  · rw [List.getElem?_set_ne (Ne.symm ne'), List.getElem?_set_ne (Ne.symm ne)]
  · rfl

end SwapAt

/-! ## The tree -/

/-- `c` is a child of `p`. -/
def Child (p c : Nat) : Prop := c = 2 * p + 1 ∨ c = 2 * p + 2

variable {p c : Nat}

theorem Child.unique {q : Nat} (child : Child p c) (child' : Child q c) : p = q := by
  unfold Child at *
  omega

theorem Child.lt (child : Child p c) : p < c := by
  unfold Child at child
  omega

/-- `j` is `i` or a descendant of it. -/
inductive Under (i : Nat) : Nat → Prop where
  | refl : Under i i
  | step {p c : Nat} : Under i p → Child p c → Under i c

namespace Under

variable {i j m p c : Nat}

theorem trans (first : Under i j) (second : Under j m) : Under i m := by
  induction second with
  | refl => exact first
  | step _ child ih => exact ih.step child

theorem of_child (child : Child p c) : Under p c := .step .refl child

theorem le (under : Under i j) : i ≤ j := by
  induction under with
  | refl => exact Nat.le_refl i
  | step _ child ih => exact Nat.le_trans ih (Nat.le_of_lt child.lt)

/-- Above the root of a subtree there is none of it. -/
theorem not_of_child (child : Child p c) : ¬ Under c p :=
  fun under => Nat.not_lt_of_ge under.le child.lt

/-- The parent of a proper descendant. -/
theorem parent (under : Under i c) (child : Child p c) (proper : c ≠ i) : Under i p := by
  cases under with
  | refl => exact absurd rfl proper
  | step under child' => rwa [child.unique child']

/-- Every position is under the first. -/
theorem zero (j : Nat) : Under 0 j := by
  induction j using Nat.strongRecOn with
  | ind j ih =>
    by_cases first : j = 0
    · subst first
      exact .refl
    · exact .step (ih ((j - 1) / 2) (by omega)) (by unfold Child; omega)

end Under

/-! ## Order -/

variable [LinearOrder L] (rank : A → L)

/-- Neither child of `p` ranks below it. -/
def OrderedAt (l : List A) (p : Nat) : Prop :=
  ∀ c, Child p c → ∀ x y, l[p]? = some x → l[c]? = some y → rank x ≤ rank y

/-- The list is a heap. -/
def IsHeap (l : List A) : Prop := ∀ p, OrderedAt rank l p

variable {rank}

variable {l : List A}

theorem OrderedAt.congr {l' : List A} (ordered : OrderedAt rank l p) (here : l'[p]? = l[p]?)
    (below : ∀ c, Child p c → l'[c]? = l[c]?) : OrderedAt rank l' p := by
  intro c child x y at_ at'
  rw [here] at at_
  rw [below c child] at at'
  exact ordered c child x y at_ at'

variable {i : Nat}

/-- In an ordered subtree nothing ranks below the root. -/
theorem root_le (ordered : ∀ p, Under i p → OrderedAt rank l p) {j : Nat} (under : Under i j)
    {x y : A} (at_ : l[i]? = some x) (at' : l[j]? = some y) : rank x ≤ rank y := by
  induction under generalizing y with
  | refl =>
    cases at_.symm.trans at'
    exact le_refl _
  | @step p c above child ih =>
    have low : p < l.length :=
      Nat.lt_trans child.lt (List.getElem?_eq_some_iff.mp at').1
    have parent := List.getElem?_eq_getElem low
    exact (ih parent).trans (ordered p above c child _ y parent at')

theorem IsHeap.root_le (heap : IsHeap rank l) {x y : A} (first : l[0]? = some x) (member : y ∈ l) :
    rank x ≤ rank y := by
  obtain ⟨j, at_⟩ := List.mem_iff_getElem?.mp member
  exact Theory.root_le (fun p _ => heap p) (.zero j) first at_

/-! ## Sinking -/

variable (rank)

/-- Both places are taken and the first ranks below the second. -/
def ranksBelow (l : List A) (c i : Nat) : Bool :=
  match l[c]?, l[i]? with
  | some x, some y => decide (rank x < rank y)
  | _, _ => false

/-- The lowest-ranking of a position and its children; the position itself when in doubt. -/
def lowest (l : List A) (i : Nat) : Nat :=
  let b := if ranksBelow rank l (2 * i + 1) i then 2 * i + 1 else i
  if ranksBelow rank l (2 * i + 2) b then 2 * i + 2 else b

/-- Sinks the element at `i`. -/
def heapify : Nat → List A → Nat → List A
  | 0, l, _ => l
  | fuel + 1, l, i =>
    if lowest rank l i = i then l
    else heapify fuel (swapAt l (lowest rank l i) i) (lowest rank l i)

variable {rank}

theorem ranksBelow_iff :
    ranksBelow rank l c i = true ↔ ∃ x y, l[c]? = some x ∧ l[i]? = some y ∧ rank x < rank y := by
  unfold ranksBelow
  split
  · rename_i x y at_ at'
    simp [at_, at']
  · rename_i none_
    constructor
    · intro impossible
      cases impossible
    · rintro ⟨x, y, at_, at', -⟩
      exact absurd at' (none_ x y at_)

/-- What `lowest` finds: the position, ordered, or a child that the other does not rank below. -/
theorem lowest_spec (rank : A → L) (l : List A) (i : Nat) :
    (lowest rank l i = i ∧ OrderedAt rank l i) ∨
      ∃ x y, Child i (lowest rank l i) ∧ l[lowest rank l i]? = some x ∧ l[i]? = some y ∧
        rank x < rank y ∧ ∀ c, Child i c → ∀ z, l[c]? = some z → rank x ≤ rank z := by
  have notBelow : ∀ {c j : Nat}, ¬ ranksBelow rank l c j = true →
      ∀ x y, l[c]? = some x → l[j]? = some y → rank y ≤ rank x :=
    fun not x y at_ at' => not_lt.mp fun less => not (ranksBelow_iff.mpr ⟨x, y, at_, at', less⟩)
  unfold lowest
  by_cases right : ranksBelow rank l (2 * i + 1) i = true
  · rw [if_pos right]
    obtain ⟨x, y, at_, at', less⟩ := ranksBelow_iff.mp right
    by_cases left : ranksBelow rank l (2 * i + 2) (2 * i + 1) = true
    · rw [if_pos left]
      obtain ⟨z, x', at₂, at₁, less'⟩ := ranksBelow_iff.mp left
      cases at_.symm.trans at₁
      refine .inr ⟨z, y, .inr rfl, at₂, at', less'.trans less, ?_⟩
      rintro c (rfl | rfl) e here
      · cases at_.symm.trans here
        exact le_of_lt less'
      · cases at₂.symm.trans here
        exact le_refl _
    · rw [if_neg left]
      refine .inr ⟨x, y, .inl rfl, at_, at', less, ?_⟩
      rintro c (rfl | rfl) e here
      · cases at_.symm.trans here
        exact le_refl _
      · exact notBelow left e x here at_
  · rw [if_neg right]
    by_cases left : ranksBelow rank l (2 * i + 2) i = true
    · rw [if_pos left]
      obtain ⟨z, y, at₂, at', less⟩ := ranksBelow_iff.mp left
      refine .inr ⟨z, y, .inr rfl, at₂, at', less, ?_⟩
      rintro c (rfl | rfl) e here
      · exact (le_of_lt less).trans (notBelow right e y here at')
      · cases at₂.symm.trans here
        exact le_refl _
    · rw [if_neg left]
      refine .inl ⟨rfl, ?_⟩
      rintro c (rfl | rfl) x y at_ at'
      · exact notBelow right y x at' at_
      · exact notBelow left y x at' at_

theorem heapify_perm (fuel : Nat) (l : List A) (i : Nat) : (heapify rank fuel l i).Perm l := by
  induction fuel generalizing l i with
  | zero => exact .refl _
  | succ fuel ih =>
    rw [heapify]
    split
    · exact .refl _
    · exact (ih _ _).trans (swapAt_perm _ _ _)

/-- Nothing moves outside the subtree. -/
theorem getElem?_heapify_of_not_under (fuel : Nat) (l : List A) {m : Nat} (outside : ¬ Under i m) :
    (heapify rank fuel l i)[m]? = l[m]? := by
  induction fuel generalizing l i with
  | zero => rfl
  | succ fuel ih =>
    rw [heapify]
    split
    · rfl
    · rename_i moves
      rcases lowest_spec rank l i with ⟨stays, -⟩ | ⟨x, y, child, -⟩
      · exact absurd stays moves
      · have apart : ¬ Under (lowest rank l i) m :=
          fun under => outside ((Under.of_child child).trans under)
        rw [ih _ apart]
        refine getElem?_swapAt_of_ne ?_ ?_
        · rintro rfl
          exact apart .refl
        · rintro rfl
          exact outside .refl

/-- A bound on the ranks of a subtree stays one. -/
theorem heapify_bound (fuel : Nat) {b : L}
    (bound : ∀ m x, Under i m → l[m]? = some x → b ≤ rank x) :
    ∀ m x, Under i m → (heapify rank fuel l i)[m]? = some x → b ≤ rank x := by
  induction fuel generalizing l i with
  | zero => exact bound
  | succ fuel ih =>
    rw [heapify]
    split
    · exact bound
    · rename_i moves
      rcases lowest_spec rank l i with ⟨stays, -⟩ | ⟨x, y, child, atC, atI, -, -⟩
      · exact absurd stays moves
      generalize lowest rank l i = c at *
      have low := (List.getElem?_eq_some_iff.mp atI).1
      have low' := (List.getElem?_eq_some_iff.mp atC).1
      have swapped : ∀ m z, Under i m → (swapAt l c i)[m]? = some z → b ≤ rank z := by
        intro m z under at_
        by_cases atTop : m = i
        · subst atTop
          rw [getElem?_swapAt_right low' low] at at_
          exact bound c z (.of_child child) at_
        by_cases atBelow : m = c
        · subst atBelow
          rw [getElem?_swapAt_left low' low] at at_
          exact bound i z .refl at_
        rw [getElem?_swapAt_of_ne atBelow atTop] at at_
        exact bound m z under at_
      intro m z under at_
      by_cases below : Under c m
      · exact ih (fun m' z' under' => swapped m' z' ((Under.of_child child).trans under')) m z below at_
      · rw [getElem?_heapify_of_not_under fuel _ below] at at_
        exact swapped m z under at_

variable {fuel : Nat}

/-- **Sinking.** If the heap is ordered at every proper descendant of `i`, then afterwards it is ordered
at `i` and all its descendants. -/
theorem heapify_ordered (enough : l.length ≤ fuel + i)
    (below : ∀ p, Under i p → p ≠ i → OrderedAt rank l p) :
    ∀ p, Under i p → OrderedAt rank (heapify rank fuel l i) p := by
  induction fuel generalizing l i with
  | zero =>
    intro p under c _ x y at_
    change l[p]? = some x at at_
    have := (List.getElem?_eq_some_iff.mp at_).1
    have := under.le
    omega
  | succ fuel ih =>
    rw [heapify]
    rcases lowest_spec rank l i with ⟨stays, ordered⟩ | ⟨x, y, child, atC, atI, less, least⟩
    · rw [if_pos stays]
      intro p under
      by_cases top : p = i
      · subst top
        exact ordered
      · exact below p under top
    · have moves : lowest rank l i ≠ i := Ne.symm (Nat.ne_of_lt child.lt)
      rw [if_neg moves]
      generalize lowest rank l i = c at *
      have low := (List.getElem?_eq_some_iff.mp atI).1
      have low' := (List.getElem?_eq_some_iff.mp atC).1
      have inOrder : ∀ p, Under c p → OrderedAt rank l p := by
        intro p under
        refine below p ((Under.of_child child).trans under) ?_
        rintro rfl
        exact Under.not_of_child child under
      -- away from the two places exchanged, the order is the old one
      have kept : ∀ p, p ≠ i → p ≠ c → ¬ Child p i → OrderedAt rank l p →
          OrderedAt rank (swapAt l c i) p := by
        intro p top bottom above old
        refine old.congr (getElem?_swapAt_of_ne bottom top) fun d child' => ?_
        refine getElem?_swapAt_of_ne ?_ ?_
        · rintro rfl
          exact top (child'.unique child)
        · rintro rfl
          exact above child'
      have sunk : ∀ p, Under c p → OrderedAt rank (heapify rank fuel (swapAt l c i) c) p := by
        refine ih (by rw [length_swapAt]; have := child.lt; omega) fun p under proper => ?_
        refine kept p ?_ proper ?_ (inOrder p under)
        · rintro rfl
          exact Under.not_of_child child under
        · exact fun above =>
            Nat.not_lt_of_ge (Nat.le_of_lt child.lt) (Nat.lt_of_le_of_lt under.le above.lt)
      -- the child that came up bounds what it left behind
      have bounded : ∀ m z, Under c m → (swapAt l c i)[m]? = some z → rank x ≤ rank z := by
        intro m z under at_
        by_cases root : m = c
        · subst root
          rw [getElem?_swapAt_left low' low, atI] at at_
          cases at_
          exact le_of_lt less
        · have top : m ≠ i := by
            rintro rfl
            exact Under.not_of_child child under
          rw [getElem?_swapAt_of_ne root top] at at_
          exact root_le inOrder under atC at_
      intro p under
      by_cases inside : Under c p
      · exact sunk p inside
      by_cases top : p = i
      · subst top
        intro d child' u v at_ at'
        rw [getElem?_heapify_of_not_under fuel _ (Under.not_of_child child),
          getElem?_swapAt_right low' low, atC] at at_
        cases at_
        by_cases same : d = c
        · subst same
          exact heapify_bound fuel bounded d v .refl at'
        · have outside : ¬ Under c d := by
            intro under'
            exact Under.not_of_child child (under'.parent child' same)
          rw [getElem?_heapify_of_not_under fuel _ outside,
            getElem?_swapAt_of_ne same (Ne.symm (Nat.ne_of_lt child'.lt))] at at'
          exact least d child' v at'
      · have bottom : p ≠ c := by
          rintro rfl
          exact inside .refl
        have above : ¬ Child p i :=
          fun above => Nat.not_lt_of_ge under.le above.lt
        refine (kept p top bottom above (below p under top)).congr ?_ fun d child' => ?_
        · exact getElem?_heapify_of_not_under fuel _ inside
        · refine getElem?_heapify_of_not_under fuel _ fun under' => ?_
          by_cases same : d = c
          · subst same
            exact top (child'.unique child)
          · exact inside (under'.parent child' same)

/-- An element that has reached the last level stays. -/
theorem heapify_succ (enough : l.length ≤ fuel + i) :
    heapify rank (fuel + 1) l i = heapify rank fuel l i := by
  induction fuel generalizing l i with
  | zero =>
    rcases lowest_spec rank l i with ⟨stays, -⟩ | ⟨x, y, -, -, at_, -⟩
    · exact if_pos stays
    · have := (List.getElem?_eq_some_iff.mp at_).1
      omega
  | succ fuel ih =>
    rcases lowest_spec rank l i with ⟨stays, -⟩ | ⟨x, y, child, -⟩
    · exact (if_pos stays).trans (if_pos stays).symm
    · have := child.lt
      exact if_congr .rfl rfl (ih (by rw [length_swapAt]; omega))

theorem heapify_add (enough : l.length ≤ fuel + i) (more : Nat) :
    heapify rank (fuel + more) l i = heapify rank fuel l i := by
  induction more with
  | zero => rfl
  | succ more ih => rw [← Nat.add_assoc, heapify_succ (by omega), ih]

/-- Sinking in a whole heap that is out of order at one place only, and there not above its
parent. -/
theorem heapify_isHeap (enough : l.length ≤ fuel + i) (others : ∀ p, p ≠ i → OrderedAt rank l p)
    (above : ∀ p, Child p i → ∀ x, l[p]? = some x → ∀ m y, Under i m → l[m]? = some y →
      rank x ≤ rank y) : IsHeap rank (heapify rank fuel l i) := by
  intro p
  by_cases inside : Under i p
  · exact heapify_ordered enough (fun q _ proper => others q proper) p inside
  · have here : (heapify rank fuel l i)[p]? = l[p]? := getElem?_heapify_of_not_under fuel l inside
    intro c child x y at_ at'
    rw [here] at at_
    by_cases top : c = i
    · subst top
      exact heapify_bound fuel (above p child x at_) c y .refl at'
    · have outside : ¬ Under i c := fun under => inside (under.parent child top)
      rw [getElem?_heapify_of_not_under fuel l outside] at at'
      have proper : p ≠ i := by
        rintro rfl
        exact inside .refl
      exact others p proper c child x y at_ at'

namespace IsHeap

variable {x new : A}

/-- The root is replaced and sinks. -/
theorem newRoot (heap : IsHeap rank (x :: l)) :
    IsHeap rank (heapify rank (l.length + 1) (new :: l) 0) := by
  refine heapify_isHeap (Nat.le_refl _) (fun p other => ?_)
    (fun p child => absurd child.lt (Nat.not_lt_zero p))
  obtain ⟨p, rfl⟩ := Nat.exists_eq_succ_of_ne_zero other
  refine (heap (p + 1)).congr rfl fun c child => ?_
  rcases child with rfl | rfl <;> rfl

/-- An element gives way to one of no lower rank, which sinks. -/
theorem sink (heap : IsHeap rank l) (at_ : l[i]? = some x) (worse : rank x ≤ rank new) :
    IsHeap rank (heapify rank l.length (l.set i new) i) := by
  have low := (List.getElem?_eq_some_iff.mp at_).1
  refine heapify_isHeap (by rw [List.length_set]; omega) (fun p other c child y z atP atC => ?_)
    (fun p child y atP m z under atM => ?_)
  · rw [List.getElem?_set_ne (Ne.symm other)] at atP
    by_cases down : c = i
    · subst down
      rw [List.getElem?_set_self low] at atC
      cases atC
      exact (heap p c child y x atP at_).trans worse
    · rw [List.getElem?_set_ne (Ne.symm down)] at atC
      exact heap p c child y z atP atC
  · rw [List.getElem?_set_ne (Nat.ne_of_gt child.lt)] at atP
    have above : ∀ z, l[m]? = some z → rank y ≤ rank z := fun z at' =>
      Theory.root_le (fun q _ => heap q) ((Under.of_child child).trans under) atP at'
    by_cases top : m = i
    · subst top
      rw [List.getElem?_set_self low] at atM
      cases atM
      exact (above x at_).trans worse
    · rw [List.getElem?_set_ne (Ne.symm top)] at atM
      exact above z atM

end IsHeap

end Cyclone.Theory
