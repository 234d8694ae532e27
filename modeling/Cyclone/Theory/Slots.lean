/-
# Theory.Slots — arrays read by their first cells

An array is a function from positions; what counts is how many of its first cells are in use.
`firstN f n` reads them as a list and `overlay l f` is `f` with a list stored in its first cells.

Two arrays may be used in turn, one at even and one at odd sizes.  `alternate f g i m` reads `m` cells
from position `i`, taking them from `f` and `g` by turns: what the arrays would give out if the size
kept growing from `i`.

`lowerBound key k l` is the first position of a list whose element has no key below `k`.
-/
import Mathlib.Data.List.Perm.Basic
import Mathlib.Logic.Function.Basic
import Mathlib.Order.Lattice
import Mathlib.Order.Nat
import Mathlib.Tactic.Common

namespace Cyclone.Theory

set_option autoImplicit false

variable {A B : Type}

/-! ## First cells -/

/-- The first `n` cells. -/
def firstN (f : Nat → A) (n : Nat) : List A := (List.range n).map f

@[simp] theorem length_firstN (f : Nat → A) (n : Nat) : (firstN f n).length = n := by
  simp [firstN]

variable {n i : Nat}

theorem getElem?_firstN (f : Nat → A) (inside : i < n) : (firstN f n)[i]? = some (f i) := by
  simp [firstN, inside]

theorem getElem_firstN (f : Nat → A) (inside : i < (firstN f n).length) :
    (firstN f n)[i] = f i := by
  simp [firstN]

variable {f : Nat → A}

theorem take_firstN (f : Nat → A) {m : Nat} (le : m ≤ n) : (firstN f n).take m = firstN f m := by
  rw [firstN, ← List.map_take, List.take_range, Nat.min_eq_left le, firstN]

theorem map_firstN (f : Nat → A) (g : A → B) (n : Nat) : (firstN f n).map g = firstN (fun i => g (f i)) n := by
  simp [firstN, Function.comp_def]

/-! ## Storing a list -/

/-- `f` with `l` stored in its first cells. -/
def overlay (l : List A) (f : Nat → A) : Nat → A := fun i => (l[i]?).getD (f i)

variable {l : List A}

theorem overlay_beyond (beyond : l.length ≤ i) : overlay l f i = f i := by
  simp [overlay, List.getElem?_eq_none beyond]

theorem overlay_inside (inside : i < l.length) : overlay l f i = l[i] := by
  simp [overlay, inside]

theorem firstN_overlay (l : List A) (f : Nat → A) : firstN (overlay l f) l.length = l := by
  refine List.ext_getElem (by simp) fun i inside inside' => ?_
  rw [getElem_firstN, overlay_inside inside']

/-- Fewer cells than were stored. -/
theorem firstN_overlay_take (le : n ≤ l.length) (f : Nat → A) :
    firstN (overlay l f) n = l.take n := by
  rw [← take_firstN _ le, firstN_overlay]

/-! ## Two arrays by turns -/

/-- `m` cells from position `i`, from `f` and `g` by turns. -/
def alternate (f g : Nat → A) : Nat → Nat → List A
  | _, 0 => []
  | i, m + 1 => f i :: alternate g f (i + 1) m

theorem alternate_congr {f' g g' : Nat → A} (same : ∀ j, i ≤ j → f j = f' j)
    (same' : ∀ j, i < j → g j = g' j) (m : Nat) : alternate f g i m = alternate f' g' i m := by
  induction m generalizing f f' g g' i with
  | zero => rfl
  | succ m ih =>
    rw [alternate, alternate, same i (Nat.le_refl i),
      ih (fun j after => same' j after) fun j after => same j (by omega)]

/-! ## Searching -/

section Search

variable {K : Type} [LinearOrder K] (key : A → K)

/-- `std::is_sorted`: no key is below one that stands before it. -/
def IsSorted (l : List A) : Prop := l.Pairwise fun x y => ¬ key y < key x

instance (l : List A) : Decidable (IsSorted key l) := by unfold IsSorted; infer_instance

/-- `std::lower_bound`: the first position that is not below `k`. -/
def lowerBound (k : K) (l : List A) : Nat := l.findIdx fun x => !decide (key x < k)

variable {key} {k : K}

theorem lowerBound_cells_le : lowerBound key k (firstN f n) ≤ n :=
  List.findIdx_le_length.trans_eq (length_firstN f n)

end Search

end Cyclone.Theory
