/-
# Theory.Commuting — operations whose order does not matter

An operation takes a state to a new one with an answer, or has no result.  Two of them commute at a
state when both orders end in the same state, with the same answer for each of them; when one order has
no result, neither has the other.  Operations on two entries of a table commute, operations on one entry
commute when they do so there, and operations that change nothing commute.
-/
import Mathlib.Logic.Function.Basic

namespace Cyclone.Theory

set_option autoImplicit false

variable {S T I A B : Type}

/-- One operation after the other. -/
def inTurn (f : S → Option (S × A)) (g : S → Option (S × B)) (s : S) : Option (S × A × B) :=
  (f s).bind fun r => (g r.1).map fun r' => (r'.1, r.2, r'.2)

/-- The order makes no difference, to the state or to the answers. -/
def CommutesAt (f : S → Option (S × A)) (g : S → Option (S × B)) (s : S) : Prop :=
  inTurn f g s = (inTurn g f s).map fun r => (r.1, r.2.2, r.2.1)

/-- An operation on one entry of a table. -/
def onEntry [DecidableEq I] (i : I) (f : S → Option (S × A)) (m : I → S) : Option ((I → S) × A) :=
  (f (m i)).map fun r => (Function.update m i r.1, r.2)

section Rules

variable {f : S → Option (S × A)} {g : S → Option (S × B)} {s : S}

theorem CommutesAt.symm (commutes : CommutesAt f g s) : CommutesAt g f s := by
  rw [CommutesAt] at commutes ⊢
  rw [commutes, Option.map_map]
  exact Option.map_id'.symm

/-- Operations that only read. -/
theorem commutesAt_of_reads (first : ∀ r, f s = some r → r.1 = s) (second : ∀ r, g s = some r → r.1 = s) :
    CommutesAt f g s := by
  rw [CommutesAt, inTurn, inTurn]
  cases ranF : f s with
  | none =>
    cases ranG : g s with
    | none => rfl
    | some r' => simp [second r' ranG, ranF]
  | some r =>
    cases ranG : g s with
    | none => simp [first r ranF, ranG]
    | some r' => simp [first r ranF, second r' ranG, ranF, ranG]

/-- An operation that always answers the same. -/
theorem commutesAt_of_const {a : A} (const : ∀ s, f s = some (s, a)) : CommutesAt f g s := by
  rw [CommutesAt, inTurn, inTurn, const, Option.bind_some]
  cases g s with
  | none => rfl
  | some r => simp [const]

theorem inTurn_answers {A A' B B' : Type} (f : S → Option (S × A)) (g : S → Option (S × B)) (u : A → A')
    (v : B → B') (s : S) :
    inTurn (fun s => (f s).map fun r => (r.1, u r.2)) (fun s => (g s).map fun r => (r.1, v r.2)) s =
      (inTurn f g s).map fun r => (r.1, u r.2.1, v r.2.2) := by
  simp [inTurn, Option.bind_map, Option.map_bind, Function.comp_def]

/-- The answers may be wrapped. -/
theorem CommutesAt.answers {A' B' : Type} (commutes : CommutesAt f g s) (u : A → A') (v : B → B') :
    CommutesAt (fun s => (f s).map fun r => (r.1, u r.2)) (fun s => (g s).map fun r => (r.1, v r.2)) s := by
  rw [CommutesAt] at commutes ⊢
  rw [inTurn_answers, inTurn_answers, commutes, Option.map_map, Option.map_map]
  rfl

variable {f' : T → Option (T × A)} {g' : T → Option (T × B)}

/-- Operations on a part of the state, in turn. -/
theorem inTurn_embed (part : T → S)
    (first : ∀ t, f (part t) = (f' t).map fun r => (part r.1, r.2))
    (second : ∀ t, g (part t) = (g' t).map fun r => (part r.1, r.2)) (t : T) :
    inTurn f g (part t) = (inTurn f' g' t).map fun r => (part r.1, r.2) := by
  rw [inTurn, inTurn, first, Option.bind_map, Option.map_bind]
  congr 1
  funext r
  simp only [Function.comp, second, Option.map_map]
  rfl

/-- Operations on a part of the state. -/
theorem CommutesAt.embed {t : T} (part : T → S)
    (first : ∀ t, f (part t) = (f' t).map fun r => (part r.1, r.2))
    (second : ∀ t, g (part t) = (g' t).map fun r => (part r.1, r.2))
    (commutes : CommutesAt f' g' t) : CommutesAt f g (part t) := by
  rw [CommutesAt] at commutes ⊢
  rw [inTurn_embed part first second, inTurn_embed part second first, commutes, Option.map_map, Option.map_map]
  rfl

variable [DecidableEq I] {i j : I} {m : I → S}

/-- Operations on two entries. -/
theorem commutesAt_entries (apart : i ≠ j) : CommutesAt (onEntry i f) (onEntry j g) m := by
  rw [CommutesAt, inTurn, inTurn, onEntry, onEntry]
  cases ranF : f (m i) with
  | none =>
    cases ranG : g (m j) with
    | none => rfl
    | some r' => simp [onEntry, apart, ranF]
  | some r =>
    cases ranG : g (m j) with
    | none => simp [onEntry, apart.symm, ranG]
    | some r' => simp [onEntry, apart, apart.symm, ranF, ranG, Function.update_comm apart]

/-- Operations on one entry. -/
theorem CommutesAt.entry (commutes : CommutesAt f g (m i)) : CommutesAt (onEntry i f) (onEntry i g) m := by
  have part : CommutesAt (onEntry i f) (onEntry i g) (Function.update m i (m i)) := by
    refine CommutesAt.embed (Function.update m i) (fun s => ?_) (fun s => ?_) commutes
    · simp [onEntry]
    · simp [onEntry]
  rwa [Function.update_eq_self] at part

/-- Operations on entries: two of them, or one where the operations commute. -/
theorem CommutesAt.entries (commutes : i = j → CommutesAt f g (m i)) : CommutesAt (onEntry i f) (onEntry j g) m := by
  by_cases same : i = j
  · subst same
    exact (commutes rfl).entry
  · exact commutesAt_entries same

end Rules

end Cyclone.Theory
