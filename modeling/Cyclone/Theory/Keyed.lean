/-
# Theory.Keyed — a list of keyed items as a finite map

Programs keep small maps as lists and find an item by scanning for its key.  `view key val l` is
the map such a list holds.  The four ways of writing the list are updates of
the map: a new item at the end, a write through the key, the removal of the first item with
a key, and a write that changes neither keys nor values.
-/
import Mathlib.Data.List.Nodup
import Mathlib.Logic.Function.Basic

namespace Cyclone.Theory

set_option autoImplicit false

variable {β κ γ : Type} [DecidableEq κ] {key : β → κ} {val : β → γ}

/-- The value of the first item with a key. -/
def view (key : β → κ) (val : β → γ) (l : List β) (k : κ) : Option γ :=
  (l.find? fun x => key x = k).map val

theorem view_nil : view key val [] = fun _ => none := rfl

theorem view_cons (x : β) (l : List β) (k : κ) :
    view key val (x :: l) k = if key x = k then some (val x) else view key val l k := by
  unfold view
  rw [List.find?_cons]
  by_cases here : key x = k
  · simp [here]
  · simp [here]

variable {l : List β} {k : κ}

theorem view_eq_none : view key val l k = none ↔ k ∉ l.map key := by
  induction l with
  | nil => simp [view_nil]
  | cons x l ih =>
    rw [view_cons]
    by_cases here : key x = k
    · simp [here]
    · simp only [here, if_false, ih, List.map_cons, List.mem_cons]
      constructor
      · rintro absent (same | later)
        · exact here same.symm
        · exact absent later
      · exact fun absent later => absent (Or.inr later)

/-- The map is decided by the keys and the values, in order. -/
theorem view_congr {l' : List β}
    (same : l'.map (fun x => (key x, val x)) = l.map fun x => (key x, val x)) :
    view key val l' = view key val l := by
  induction l generalizing l' with
  | nil =>
    have empty : l' = [] := by simpa using same
    rw [empty]
  | cons x l ih =>
    cases l' with
    | nil => cases same
    | cons x' l' =>
      simp only [List.map_cons, List.cons.injEq, Prod.mk.injEq] at same
      obtain ⟨⟨keys, vals⟩, rest⟩ := same
      funext k
      rw [view_cons, view_cons, keys, vals, ih rest]

theorem view_snoc {x : β} (fresh : key x ∉ l.map key) :
    view key val (l ++ [x]) = Function.update (view key val l) (key x) (some (val x)) := by
  induction l with
  | nil =>
    funext k
    rw [List.nil_append, view_cons, view_nil]
    by_cases here : key x = k
    · subst here
      simp
    · rw [if_neg here, Function.update_of_ne (Ne.symm here)]
  | cons y l ih =>
    simp only [List.map_cons, List.mem_cons, not_or] at fresh
    funext k
    rw [List.cons_append, view_cons, ih fresh.2]
    by_cases here : key y = k
    · subst here
      rw [if_pos rfl, Function.update_of_ne (Ne.symm fresh.1), view_cons, if_pos rfl]
    · rw [if_neg here]
      by_cases new : k = key x
      · subst new
        simp
      · rw [Function.update_of_ne new, Function.update_of_ne new, view_cons, if_neg here]

/-- A write of one value through a key that is there. -/
theorem view_write {f : β → β} {v : γ} (keys : ∀ x, key (f x) = key x) (vals : ∀ x, val (f x) = v)
    (present : k ∈ l.map key) :
    view key val (l.map fun x => if key x = k then f x else x) =
      Function.update (view key val l) k (some v) := by
  have other : ∀ {l : List β} {k' : κ}, k' ≠ k →
      view key val (l.map fun x => if key x = k then f x else x) k' = view key val l k' := by
    intro l k' differ
    induction l with
    | nil => rfl
    | cons x l ih =>
      rw [List.map_cons, view_cons, view_cons, ih]
      by_cases here : key x = k
      · rw [if_pos here, keys, here, if_neg (Ne.symm differ), if_neg (Ne.symm differ)]
      · rw [if_neg here]
  funext k'
  by_cases here : k' = k
  · subst here
    rw [Function.update_self]
    induction l with
    | nil => cases present
    | cons x l ih =>
      rw [List.map_cons, view_cons]
      by_cases first : key x = k'
      · rw [if_pos first, keys, if_pos first, vals]
      · rw [if_neg first, if_neg first]
        refine ih ?_
        rcases List.mem_cons.mp present with same | later
        · exact absurd same.symm first
        · exact later
  · rw [Function.update_of_ne here, other here]

/-- The removal of the item with a key. -/
theorem view_erase (distinct : (l.map key).Nodup) (k : κ) :
    view key val (l.eraseP fun x => key x = k) = Function.update (view key val l) k none := by
  induction l with
  | nil =>
    funext k'
    by_cases here : k' = k
    · subst here
      simp [view_nil]
    · simp [view_nil, Function.update_of_ne here]
  | cons x l ih =>
    obtain ⟨unseen, rest⟩ := List.nodup_cons.mp distinct
    funext k'
    by_cases first : key x = k
    · rw [List.eraseP_cons_of_pos (by simpa using first)]
      by_cases here : k' = k
      · subst here
        rw [Function.update_self]
        exact view_eq_none.mpr (first ▸ unseen)
      · rw [Function.update_of_ne here, view_cons, if_neg fun same => here (same.symm.trans first)]
    · rw [List.eraseP_cons_of_neg (by simpa using first), view_cons, ih rest]
      by_cases here : k' = k
      · subst here
        rw [Function.update_self, Function.update_self, if_neg first]
      · rw [Function.update_of_ne here, Function.update_of_ne here, view_cons]

end Cyclone.Theory
