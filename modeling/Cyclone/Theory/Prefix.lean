/-
# Theory.Prefix — list prefixes, cut by length

The order every log argument is carried out in.  A log is a list, "the first
`m` entries" is `take m`, and "agrees with" is `<+:`.  The lemmas here are the
ones a replicated-log proof needs beyond the library's: two prefixes of one list
are ordered by length, a cut survives extension, and a prefix ends where its
last element stands.
-/
import Mathlib.Data.List.Infix

namespace Cyclone.Theory

set_option autoImplicit false

variable {E : Type}

variable {p l : List E} {m : Nat}

/-- A cut of a prefix is the cut of the whole. -/
theorem take_prefix_eq (pre : p <+: l) (short : m ≤ p.length) : l.take m = p.take m := by
  obtain ⟨tail, rfl⟩ := pre
  exact List.take_append_of_le_length short

/-- Cutting a list that starts with `p` at `p`'s length gives `p` back. -/
theorem take_length_eq (pre : p <+: l) : l.take p.length = p := by
  rw [take_prefix_eq pre (le_refl _), List.take_length]

/-- The first `m` elements of `l` start `l'` exactly when the two cuts agree. -/
theorem take_prefix_iff {l' : List E} (short : m ≤ l.length) :
    l.take m <+: l' ↔ l'.take m = l.take m := by
  constructor
  · intro pre
    have := take_length_eq pre
    rwa [List.length_take_of_le short] at this
  · intro same
    rw [← same]
    exact List.take_prefix _ _

theorem prefix_eq_of_length {q : List E} (left : p <+: l) (right : q <+: l)
    (same : p.length = q.length) : p = q :=
  (List.prefix_of_prefix_length_le left right (le_of_eq same)).eq_of_length same

variable {k : Nat} {e : E}

/-- A nonempty cut ends in the element at its last position. -/
theorem take_succ_of_getElem? (at_ : l[k]? = some e) : l.take (k + 1) = l.take k ++ [e] := by
  rw [List.take_add_one, at_]
  rfl

theorem snoc_prefix_of_getElem? (at_ : l[k]? = some e) : l.take k ++ [e] <+: l := by
  rw [← take_succ_of_getElem? at_]
  exact List.take_prefix _ _

theorem getElem?_snoc (pre : p ++ [e] <+: l) : l[p.length]? = some e := by
  obtain ⟨tail, rfl⟩ := pre
  simp

/-- Reading inside a prefix reads the whole. -/
theorem getElem?_prefix_eq (pre : p <+: l) (inside : k < p.length) : l[k]? = p[k]? := by
  obtain ⟨tail, rfl⟩ := pre
  rw [List.getElem?_append_left inside]

/-- A common prefix ends before the first place where two lists differ. -/
theorem prefix_le_of_differ {l' : List E} (left : p <+: l) (right : p <+: l')
    (differ : ∀ x, l[k]? = some x → l'[k]? ≠ some x) : p.length ≤ k := by
  by_contra long
  have inside : k < p.length := by omega
  have here : p[k]? = some p[k] := List.getElem?_eq_getElem inside
  rw [← getElem?_prefix_eq left inside] at here
  apply differ _ here
  rw [getElem?_prefix_eq right inside, ← getElem?_prefix_eq left inside, here]

end Cyclone.Theory
