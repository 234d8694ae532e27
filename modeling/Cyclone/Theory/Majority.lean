/-
# Theory.Majority — sets holding more than half of a finite type

A majority is a finite set whose double exceeds the whole.  The one fact every
quorum argument rests on is `Majority.meet`: two majorities share a member.
`majority_of_nodup` turns the count a program takes over a list of distinct
members into a majority of the type those members come from.
-/
import Mathlib.Data.Fintype.Card
import Mathlib.Data.Finset.Card

namespace Cyclone.Theory

set_option autoImplicit false

variable {ι : Type} [Fintype ι]

/-- More than half of the type. -/
def Majority (Q : Finset ι) : Prop :=
  Fintype.card ι < 2 * Q.card

/-- Two majorities share a member. -/
theorem Majority.meet [DecidableEq ι] {Q R : Finset ι} (left : Majority Q) (right : Majority R) :
    ∃ i, i ∈ Q ∧ i ∈ R := by
  have overlap : (Q ∩ R).Nonempty := by
    rw [← Finset.card_pos]
    have whole : (Q ∪ R).card ≤ Fintype.card ι := Finset.card_le_univ _
    have split := Finset.card_union_add_card_inter Q R
    unfold Majority at left right
    omega
  obtain ⟨i, member⟩ := overlap
  exact ⟨i, (Finset.mem_inter.mp member).1, (Finset.mem_inter.mp member).2⟩

/-- A duplicate-free list longer than half of the type is a majority. -/
theorem majority_of_nodup [DecidableEq ι] {l : List ι} (distinct : l.Nodup)
    (long : Fintype.card ι < 2 * l.length) : Majority l.toFinset := by
  unfold Majority
  rwa [List.toFinset_card_of_nodup distinct]

end Cyclone.Theory
