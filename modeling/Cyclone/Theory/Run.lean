/-
# Theory.Run — runs of a deterministic labelled system

A system is a partial step function on labelled steps; whatever the environment
chooses is in the label.  `Path step ok` relates the two ends of a run whose
every step met `ok` in the state it was taken from, so a property of "every run
whose steps all meet a condition" is a property along `Path`.  `Path.keeps` is
the one induction every invariant goes through.  `Endless` is a run that never
stops, for what is to happen in the end.
-/
import Mathlib.Logic.Basic

namespace Cyclone.Theory

set_option autoImplicit false

variable {S L : Type}

/-- A run from `s`, each step of which meets `ok` in the state it starts from. -/
inductive Path (step : S → L → Option S) (ok : S → L → Prop) (s : S) : S → Prop where
  | refl : Path step ok s s
  | tail {t u : S} {l : L} : Path step ok s t → ok t l → step t l = some u → Path step ok s u

/-- No condition on the steps. -/
def anyStep (_ : S) (_ : L) : Prop := True

instance (s : S) (l : L) : Decidable (anyStep s l) := isTrue trivial

/-- Executes a list of labels; nothing when a step is not possible or does not meet `ok`. -/
def exec (step : S → L → Option S) (ok : S → L → Prop) [∀ s l, Decidable (ok s l)] :
    S → List L → Option S
  | s, [] => some s
  | s, l :: ls => if ok s l then (step s l).bind fun t => exec step ok t ls else none

/-! Fixed runs name servers and cores by numerals. -/

instance (priority := 2000) neZero_one : @NeZero Nat Zero.ofOfNat0 1 := ⟨Nat.succ_ne_zero 0⟩
instance (priority := 2000) neZero_two : @NeZero Nat Zero.ofOfNat0 2 := ⟨Nat.succ_ne_zero 1⟩
instance (priority := 2000) neZero_three : @NeZero Nat Zero.ofOfNat0 3 := ⟨Nat.succ_ne_zero 2⟩

namespace Path

variable {step : S → L → Option S} {ok ok' : S → L → Prop} {s t u : S}

theorem trans (first : Path step ok s t) (second : Path step ok t u) : Path step ok s u := by
  induction second with
  | refl => exact first
  | tail _ good taken ih => exact .tail ih good taken

/-- An invariant that every step meeting the condition keeps holds along the run. -/
theorem keeps {I : S → Prop} (start : I s)
    (preserved : ∀ t l u, I t → ok t l → step t l = some u → I u)
    (path : Path step ok s t) : I t := by
  induction path with
  | refl => exact start
  | tail _ good taken ih => exact preserved _ _ _ ih good taken

theorem mono (weaker : ∀ t l, ok t l → ok' t l) (path : Path step ok s t) : Path step ok' s t := by
  induction path with
  | refl => exact .refl
  | tail _ good taken ih => exact .tail ih (weaker _ _ good) taken

variable {ls : List L}

/-- What a list of labels computes is the end of a run. -/
theorem of_exec [∀ s l, Decidable (ok s l)] (computed : exec step ok s ls = some t) :
    Path step ok s t := by
  induction ls generalizing s with
  | nil => cases computed; exact .refl
  | cons l ls ih =>
    rw [exec] at computed
    split at computed
    · rename_i good
      obtain ⟨v, taken, rest⟩ := Option.bind_eq_some_iff.mp computed
      exact (Path.tail .refl good taken).trans (ih rest)
    · cases computed

/-- A run whose end was checked to have a property. -/
theorem exists_of_exec [∀ s l, Decidable (ok s l)] {l : List L} {P : S → Prop}
    (checked : ∃ t ∈ exec step ok s l, P t) : ∃ t, Path step ok s t ∧ P t := by
  obtain ⟨t, ran, holds⟩ := checked
  exact ⟨t, of_exec ran, holds⟩

end Path

/-! ## Runs without end -/

/-- A run from `s` that never stops. -/
structure Endless (step : S → L → Option S) (s : S) (states : Nat → S) (labels : Nat → L) : Prop where
  start : states 0 = s
  steps : ∀ n, step (states n) (labels n) = some (states (n + 1))

namespace Endless

variable {step : S → L → Option S} {s : S} {states : Nat → S} {labels : Nat → L}

theorem keeps {I : S → Prop} (start : I s)
    (preserved : ∀ t l u, I t → step t l = some u → I u) (run : Endless step s states labels)
    (n : Nat) : I (states n) := by
  induction n with
  | zero => rw [run.start]; exact start
  | succ n ih => exact preserved _ _ _ ih (run.steps n)

/-- A rank that never grows, and falls with each label of a kind that keeps coming back, comes to 0. -/
theorem reaches_zero (rank : S → Nat) {progress : L → Prop}
    (again : ∀ n, ∃ m, n ≤ m ∧ progress (labels m))
    (antitone : ∀ n, rank (states (n + 1)) ≤ rank (states n))
    (falls : ∀ n, progress (labels n) → rank (states n) ≠ 0 →
      rank (states (n + 1)) < rank (states n)) : ∃ n, rank (states n) = 0 := by
  have later (n d : Nat) : rank (states (n + d)) ≤ rank (states n) := by
    induction d with
    | zero => exact Nat.le_refl _
    | succ d ih => exact Nat.le_trans (antitone (n + d)) ih
  have below (k n : Nat) (bound : rank (states n) ≤ k) : ∃ m, rank (states m) = 0 := by
    induction k generalizing n with
    | zero => exact ⟨n, Nat.le_zero.mp bound⟩
    | succ k ih =>
      obtain ⟨m, after, makes⟩ := again n
      obtain ⟨d, rfl⟩ := Nat.exists_eq_add_of_le after
      have := later n d
      by_cases zero : rank (states (n + d)) = 0
      · exact ⟨n + d, zero⟩
      · have := falls (n + d) makes zero
        exact ih (n + d + 1) (by omega)
  exact below _ 0 (Nat.le_refl _)

/-- While an invariant holds there is always a step to take that keeps it. -/
theorem exists_of_goes {I : S → Prop} (pick : Nat → S → L) (start : I s)
    (goes : ∀ n t, I t → ∃ u, step t (pick n t) = some u ∧ I u) :
    ∃ states, Endless step s states (fun n => pick n (states n)) ∧ ∀ n, I (states n) := by
  let states : Nat → S := fun n => n.rec s fun n t => (step t (pick n t)).getD t
  have next (n : Nat) : states (n + 1) = (step (states n) (pick n (states n))).getD (states n) := rfl
  have inside (n : Nat) : I (states n) := by
    induction n with
    | zero => exact start
    | succ n ih =>
      obtain ⟨u, taken, kept⟩ := goes n _ ih
      rw [next, taken]
      exact kept
  refine ⟨states, ⟨rfl, fun n => ?_⟩, inside⟩
  obtain ⟨u, taken, -⟩ := goes n _ (inside n)
  rw [next, taken]
  rfl

end Endless

/-! ## Results -/

section Results

variable {ε A B : Type} {x : Except ε A} {f : A → B}

/-- Where a mapped result came from. -/
theorem ok_of_map {b : B} (mapped : x.map f = .ok b) : ∃ a, x = .ok a ∧ f a = b := by
  cases x with
  | error e => cases mapped
  | ok a => exact ⟨a, rfl, Except.ok.inj mapped⟩

theorem error_of_map {e : ε} (mapped : x.map f = .error e) : x = .error e := by
  cases x with
  | error e' => cases mapped; rfl
  | ok a => cases mapped

end Results

end Cyclone.Theory
