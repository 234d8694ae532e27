/-
# Theory.Ring — lists kept in a ring of cells

A ring is an array of `size` cells read modulo `size`.  `Shows cells size front l` says that the list
`l` stands in it from the absolute position `front` on; only `front % size` matters for
what the cells are, so a ring whose ends are kept wrapped and one whose ends are absolute are
read by the same lemmas.

The lemmas follow what code does to a ring: it writes behind the list (`Shows.append`, with
`Shows.blit` for a block copied in one piece or in two at the end of the array), gives up either
end (`Shows.drop`, `Shows.starts`), and copies the window into a larger array (`Shows.grow`).
-/
import Mathlib.Data.Nat.ModEq
import Mathlib.Logic.Function.Basic
import Mathlib.Tactic.Common

namespace Cyclone.Theory

set_option autoImplicit false

variable {A : Type}

/-- The list stands in the ring from `front` on. -/
def Shows (cells : Nat → A) (size front : Nat) (l : List A) : Prop :=
  l.length ≤ size ∧ ∀ (i : Nat) (a : A), l[i]? = some a → cells ((front + i) % size) = a

/-! ## Places -/

variable {size p i : Nat}

/-- Fewer than `size` steps apart, places differ. -/
theorem place_inj {j : Nat} (low : i < size) (low' : j < size)
    (same : (p + i) % size = (p + j) % size) : i = j :=
  (Nat.ModEq.add_left_cancel' p same).eq_of_lt_of_lt low low'

variable {k : Nat}

/-- A place fewer than `size` steps ahead is in this lap or in the next. -/
theorem place_add (low : k < size) :
    (p % size + k < size ∧ (p + k) % size = p % size + k) ∨
      (size ≤ p % size + k ∧ (p + k) % size = p % size + k - size) := by
  have below : p % size < size := Nat.mod_lt p (by omega)
  rw [← Nat.mod_add_mod]
  by_cases lap : p % size + k < size
  · exact .inl ⟨lap, Nat.mod_eq_of_lt lap⟩
  · refine .inr ⟨by omega, ?_⟩
    rw [Nat.mod_eq_sub_mod (by omega), Nat.mod_eq_of_lt (by omega)]

/-! ## The list in the ring -/

namespace Shows

variable {cells cells' : Nat → A} {size front : Nat} {l cs : List A}

theorem nil (cells : Nat → A) (size front : Nat) : Shows cells size front [] :=
  ⟨Nat.zero_le _, fun i a at_ => by cases at_⟩

theorem starts {l' : List A} (shows_ : Shows cells size front l) (pre : l' <+: l) :
    Shows cells size front l' := by
  refine ⟨pre.length_le.trans shows_.1, fun i a at_ => shows_.2 i a ?_⟩
  obtain ⟨rest, rfl⟩ := pre
  obtain ⟨bound, -⟩ := List.getElem?_eq_some_iff.mp at_
  rw [List.getElem?_append_left bound, at_]

theorem drop (shows_ : Shows cells size front l) (k : Nat) :
    Shows cells size (front + k) (l.drop k) := by
  refine ⟨by rw [List.length_drop]; exact (Nat.sub_le _ _).trans shows_.1, fun i a at_ => ?_⟩
  rw [List.getElem?_drop] at at_
  rw [Nat.add_assoc]
  exact shows_.2 (k + i) a at_

/-- Only the place of the front matters. -/
theorem of_mod {front' : Nat} (shows_ : Shows cells size front l)
    (same : front' % size = front % size) : Shows cells size front' l := by
  refine ⟨shows_.1, fun i a at_ => ?_⟩
  rw [← shows_.2 i a at_, ← Nat.mod_add_mod front', same, Nat.mod_add_mod]

/-- Cells written behind the list, the others unchanged. -/
theorem append (shows_ : Shows cells size front l) (fits : l.length + cs.length ≤ size)
    (written : ∀ k a, cs[k]? = some a → cells' ((front + l.length + k) % size) = a)
    (kept : ∀ k, cs.length ≤ k → k < size →
      cells' ((front + l.length + k) % size) = cells ((front + l.length + k) % size)) :
    Shows cells' size front (l ++ cs) := by
  refine ⟨by rw [List.length_append]; exact fits, fun i a at_ => ?_⟩
  by_cases old : i < l.length
  · rw [List.getElem?_append_left old] at at_
    -- an old place, seen from behind the list
    have around : (front + l.length + (size - (l.length - i))) % size = (front + i) % size := by
      rw [show front + l.length + (size - (l.length - i)) = front + i + size by omega,
        Nat.add_mod_right]
    rw [← around, kept _ (by omega) (by omega), around]
    exact shows_.2 i a at_
  · rw [List.getElem?_append_right (by omega)] at at_
    have here := written (i - l.length) a at_
    rwa [show front + l.length + (i - l.length) = front + i by omega] at here

end Shows

/-! ## Blocks -/

/-- A block copied to the cells from `p` on. -/
def blit (cells : Nat → A) (p : Nat) (block : List A) : Nat → A :=
  fun q => if p ≤ q then (block[q - p]?).getD (cells q) else cells q

variable {cells : Nat → A} {block : List A}

theorem blit_inside {a : A} (at_ : block[k]? = some a) : blit cells p block (p + k) = a := by
  simp [blit, at_]

variable {q : Nat}

theorem blit_outside (outside : q < p ∨ p + block.length ≤ q) : blit cells p block q = cells q := by
  unfold blit
  split
  · rw [List.getElem?_eq_none (by omega)]
    rfl
  · rfl

/-- A block copied into the ring at `p`: in one piece when its last place is not before its first,
and otherwise in two, split at the end of the array. -/
def blitRing (cells : Nat → A) (size p : Nat) (block : List A) : Nat → A :=
  if (p + block.length - 1) % size ≥ p % size then blit cells (p % size) block
  else
    blit (blit cells (p % size) (block.take (size - p % size))) 0 (block.drop (size - p % size))

section BlitRing

variable {cells : Nat → A} {size p k : Nat} {block : List A}

/-- The test of `blitRing` tells whether the block reaches the end of the array. -/
theorem blitRing_fits_iff (some_ : 0 < block.length) (fits : block.length ≤ size) :
    (p + block.length - 1) % size ≥ p % size ↔ p % size + block.length ≤ size := by
  have last := @place_add size p (block.length - 1) (by omega)
  rw [show p + (block.length - 1) = p + block.length - 1 by omega] at last
  omega

theorem blitRing_inside {a : A} (fits : block.length ≤ size) (at_ : block[k]? = some a) :
    blitRing cells size p block ((p + k) % size) = a := by
  have bound := (List.getElem?_eq_some_iff.mp at_).1
  have below : p % size < size := Nat.mod_lt p (by omega)
  have place := @place_add size p k (by omega)
  unfold blitRing
  simp only [blitRing_fits_iff (show 0 < block.length by omega) fits]
  split
  · rw [show (p + k) % size = p % size + k by omega]
    exact blit_inside at_
  · rcases place with ⟨lap, place⟩ | ⟨lap, place⟩
    · rw [place, blit_outside (by rw [List.length_drop]; omega)]
      exact blit_inside (by rw [List.getElem?_take_of_lt (by omega), at_])
    · rw [place, show p % size + k - size = 0 + (k - (size - p % size)) by omega]
      refine blit_inside ?_
      rw [List.getElem?_drop, show size - p % size + (k - (size - p % size)) = k by omega, at_]

theorem blitRing_outside (some_ : 0 < block.length) (high : block.length ≤ k) (low : k < size) :
    blitRing cells size p block ((p + k) % size) = cells ((p + k) % size) := by
  have below : p % size < size := Nat.mod_lt p (by omega)
  have place := @place_add size p k low
  unfold blitRing
  simp only [blitRing_fits_iff some_ (show block.length ≤ size by omega)]
  split
  · exact blit_outside (by omega)
  · rw [blit_outside (by rw [List.length_drop]; omega),
      blit_outside (by rw [List.length_take]; omega)]

end BlitRing

variable {front : Nat} {l : List A}

/-- A block copied behind the list. -/
theorem Shows.blit (shows_ : Shows cells size front l) (some_ : 0 < block.length)
    (fits : l.length + block.length ≤ size) :
    Shows (blitRing cells size (front + l.length) block) size front (l ++ block) :=
  shows_.append fits (fun _ _ at_ => blitRing_inside (by omega) at_)
    fun _ high low => blitRing_outside some_ high low

/-- One cell written behind the list. -/
theorem Shows.push (a : A) (shows_ : Shows cells size front l) (fits : l.length < size) :
    Shows (Function.update cells ((front + l.length) % size) a) size front (l ++ [a]) := by
  refine shows_.append fits (fun k b at_ => ?_) (fun k high low => ?_)
  · cases k with
    | zero =>
      cases at_
      exact Function.update_self _ _ _
    | succ k => cases at_
  · refine Function.update_of_ne (fun same => ?_) _ _
    have zero := place_inj (i := k) (j := 0) low (by omega) same
    simp at high
    omega

/-- The `n` cells from `p` on, read as one block. -/
def readBlock (cells : Nat → A) (p n : Nat) : List A := (List.range n).map fun k => cells (p + k)

/-- A stretch of the list that stays in one lap is one block of cells. -/
theorem Shows.readBlock {n : Nat} (shows_ : Shows cells size front l) (inside : k + n ≤ l.length)
    (lap : (front + k) % size + n ≤ size) :
    readBlock cells ((front + k) % size) n = (l.drop k).take n := by
  refine List.ext_getElem? fun j => ?_
  rw [Theory.readBlock, List.getElem?_map]
  by_cases low : j < n
  · have fits := shows_.1
    have at_ : l[k + j]? = some l[k + j] := List.getElem?_eq_getElem (by omega)
    have place : (front + (k + j)) % size = (front + k) % size + j := by
      have spot := @place_add size (front + k) j (by omega)
      rw [← Nat.add_assoc]
      omega
    rw [List.getElem?_range low, Option.map_some, ← place, shows_.2 _ _ at_,
      List.getElem?_take_of_lt low, List.getElem?_drop, at_]
  · rw [List.getElem?_eq_none (by simp; omega), List.getElem?_eq_none (by simp; omega)]
    rfl

/-! ## A larger ring -/

/-- The copy of `count` places from `i` on, each to its place in an array of another size. -/
def copyWindow (cells : Nat → A) (size size' : Nat) : Nat → Nat → (Nat → A) → Nat → A
  | 0, _, temp => temp
  | count + 1, i, temp =>
    copyWindow cells size size' count (i + 1)
      (Function.update temp (i % size') (cells (i % size)))

variable {temp : Nat → A} {size' count : Nat}

theorem copyWindow_outside (outside : ∀ k < count, (i + k) % size' ≠ q) :
    copyWindow cells size size' count i temp q = temp q := by
  induction count generalizing i temp with
  | zero => rfl
  | succ count ih =>
    rw [copyWindow, ih]
    · exact Function.update_of_ne (Ne.symm (outside 0 (by omega))) _ _
    · intro k low
      rw [show i + 1 + k = i + (k + 1) by omega]
      exact outside (k + 1) (by omega)

theorem copyWindow_inside (fits : count ≤ size') (low : k < count) :
    copyWindow cells size size' count i temp ((i + k) % size') = cells ((i + k) % size) := by
  induction count generalizing i k temp with
  | zero => omega
  | succ count ih =>
    rw [copyWindow]
    cases k with
    | zero =>
      -- no later copy comes back to this place
      rw [copyWindow_outside, Nat.add_zero, Function.update_self]
      intro j below same
      rw [show i + 1 + j = i + (j + 1) by omega] at same
      have zero := place_inj (show j + 1 < size' by omega) (show 0 < size' by omega) same
      omega
    | succ k =>
      rw [show i + (k + 1) = i + 1 + k by omega]
      exact ih (by omega) (by omega)

/-- The window, copied into a larger array. -/
theorem Shows.grow (shows_ : Shows cells size front l) (larger : size ≤ size') :
    Shows (copyWindow cells size size' l.length front temp) size' front l := by
  refine ⟨shows_.1.trans larger, fun i a at_ => ?_⟩
  obtain ⟨bound, -⟩ := List.getElem?_eq_some_iff.mp at_
  rw [copyWindow_inside (shows_.1.trans larger) bound]
  exact shows_.2 i a at_

end Cyclone.Theory
