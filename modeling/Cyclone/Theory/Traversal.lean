/-
# Theory.Traversal — readers that come to the end

The reader of `Theory.Framing` goes on by a length that it finds in the record it stands at.  Cells
are a sequence of records (`Records`) when at each of them the whole header is there and its length
leads on, be it over the end.  These are the cells that a reader comes to the end of, with every
header on its way inside, without ever turning back (`traversed_iff`).
-/
import Cyclone.Theory.Framing
import Mathlib.Data.Nat.Init

namespace Cyclone.Theory

open Buffer

set_option autoImplicit false

section Traversal

variable {B : Type} (H : Nat) (size : List B → Int)

/-- A header at `p` lies in the buffer. -/
def Buffer.HasHeader (s : Buffer B) (p : Int) : Prop := 0 ≤ p ∧ p + H ≤ s.len

/-- The reader stops, and every header it reads lies in the buffer. -/
def Buffer.Traversed (s : Buffer B) : Prop :=
  (∃ k, s.pointAt H size k = none) ∧ ∀ k p, s.pointAt H size k = some p → s.HasHeader H p

/-- Some record that the reader comes to does not lead on. -/
def Buffer.TurnsBack (s : Buffer B) : Prop :=
  ∃ k p, s.pointAt H size k = some p ∧ s.next H size p ≤ p

/-- Nothing, or a whole header whose length leads on to where the cells are such again. -/
inductive Records : List B → Prop
  | nil : Records []
  | cons {cells : List B} (header : H ≤ cells.length) (onward : 0 < H + size (cells.take H))
      (rest : Records (cells.drop (H + size (cells.take H)).toNat)) : Records cells

variable {H size} {s : Buffer B} {p q : Int} {k j : Nat}

/-! ## Places and steps -/

theorem pointAt_succ_iff : s.pointAt H size (k + 1) = some q ↔
    ∃ p, s.pointAt H size k = some p ∧ q = s.next H size p ∧ q < s.len := by
  rw [pointAt, Option.bind_eq_some_iff]
  constructor
  · rintro ⟨p, at_, moved⟩
    split at moved
    · rename_i below
      cases moved
      exact ⟨p, at_, rfl, below⟩
    · cases moved
  · rintro ⟨p, at_, rfl, below⟩
    exact ⟨p, at_, if_pos below⟩

theorem pointAt_stays_none (ended : s.pointAt H size k = none) (le : k ≤ j) :
    s.pointAt H size j = none := by
  induction j, le using Nat.le_induction with
  | base => exact ended
  | succ j _ ih => rw [pointAt, ih, Option.bind_none]

/-- The records of one buffer are those at the places the reader comes to. -/
theorem recordAt_single (k : Nat) :
    recordAt H size k [s] 0 = (s.pointAt H size k).map (s.record H size) := by
  have from_ : ∀ k j p, s.pointAt H size j = some p →
      recordAt H size k [s] p = (s.pointAt H size (j + k)).map (s.record H size) := by
    intro k
    induction k with
    | zero =>
      intro j p at_
      rw [recordAt_zero H size (pointAt_below at_), Nat.add_zero, at_, Option.map_some]
    | succ k ih =>
      intro j p at_
      rw [recordAt_succ H size (pointAt_below at_)]
      by_cases more : s.next H size p < s.len
      · have there : s.pointAt H size (j + 1) = some (s.next H size p) :=
          pointAt_succ_iff.mpr ⟨p, at_, rfl, more⟩
        rw [ih (j + 1) _ there, Nat.add_right_comm, Nat.add_assoc]
      · have ended : s.pointAt H size (j + 1) = none := by
          rw [pointAt, at_, Option.bind_some, if_neg more]
        rw [recordAt_skip H size (by omega), recordAt_nil,
          pointAt_stays_none ended (by omega : j + 1 ≤ j + (k + 1)), Option.map_none]
  by_cases some_ : 0 < s.len
  · have start : s.pointAt H size 0 = some 0 := if_pos some_
    rw [from_ k 0 0 start, Nat.zero_add]
  · have none_ : s.pointAt H size 0 = none := if_neg some_
    rw [recordAt_skip H size (by omega), recordAt_nil, pointAt_stays_none none_ (Nat.zero_le k),
      Option.map_none]

/-! ## The end -/

variable {cells : List B}

theorem Buffer.Holds.read (holds : s.Holds cells) (header : s.HasHeader H p) :
    s.read p H = (cells.drop p.toNat).take H := by
  obtain ⟨low, high⟩ := header
  apply List.ext_getElem?
  intro i
  by_cases inside : i < H
  · have cell := holds.cell (show 0 ≤ p + i by omega) (by omega)
    rw [show (p + i).toNat = p.toNat + i by omega] at cell
    simp [Buffer.read, inside, cell]
  · rw [List.getElem?_eq_none (by simp [Buffer.read]; omega), List.getElem?_eq_none (by simp; omega)]

theorem Buffer.Holds.next (holds : s.Holds cells) (header : s.HasHeader H p) :
    s.next H size p = p + (H + size ((cells.drop p.toNat).take H)) := by
  rw [Buffer.next, sizeAt, holds.read header, Int.add_assoc]

/-- The record that a sequence of records starts with. -/
theorem Records.first (holds : s.Holds cells) (low : 0 ≤ p) (below : p < s.len)
    (records : Records H size (cells.drop p.toNat)) :
    s.HasHeader H p ∧ p < s.next H size p ∧ Records H size (cells.drop (s.next H size p).toNat) := by
  have length := holds.1
  generalize left : cells.drop p.toNat = suffix at records
  cases records with
  | nil =>
    have none_ := List.drop_eq_nil_iff.mp left
    omega
  | cons header onward rest =>
    rw [← left] at header onward rest
    rw [List.length_drop] at header
    have inside : s.HasHeader H p := ⟨low, by omega⟩
    rw [holds.next inside]
    refine ⟨inside, by omega, ?_⟩
    rw [List.drop_drop] at rest
    rwa [Int.toNat_add low (Int.le_of_lt onward)]

/-- Where a reader of a sequence of records stands, the rest is one. -/
theorem Records.at_ (holds : s.Holds cells) (records : Records H size cells)
    (at_ : s.pointAt H size k = some p) :
    (k : Int) ≤ p ∧ Records H size (cells.drop p.toNat) := by
  induction k generalizing p with
  | zero =>
    rw [pointAt] at at_
    split at at_
    · cases at_
      exact ⟨Int.le_refl 0, records⟩
    · cases at_
  | succ k ih =>
    obtain ⟨q, before, rfl, -⟩ := pointAt_succ_iff.mp at_
    obtain ⟨far, rest⟩ := ih before
    obtain ⟨-, onward, next⟩ := rest.first holds (by omega) (pointAt_below before)
    exact ⟨by omega, next⟩

/-- **Traversal.**  A reader comes to the end with all headers inside, and never turns back, exactly
when the cells are a sequence of records. -/
theorem traversed_iff (holds : s.Holds cells) :
    s.Traversed H size ∧ ¬ s.TurnsBack H size ↔ Records H size cells := by
  constructor
  · rintro ⟨⟨⟨n, ended⟩, inside⟩, onward⟩
    -- From the end backwards: behind every record that is met lies such a sequence.
    have from_ : ∀ m k p, k + m = n → s.pointAt H size k = some p →
        Records H size (cells.drop p.toNat) := by
      intro m
      induction m with
      | zero =>
        intro k p last at_
        rw [← last, Nat.add_zero, at_] at ended
        cases ended
      | succ m ih =>
        intro k p last at_
        have header := inside k p at_
        have next : s.next H size p = _ := holds.next header
        have length := holds.1
        have ahead : p < s.next H size p := Int.not_le.mp fun back => onward ⟨k, p, at_, back⟩
        have step : 0 < H + size ((cells.drop p.toNat).take H) := by omega
        obtain ⟨low, high⟩ := header
        refine .cons (by rw [List.length_drop]; omega) step ?_
        rw [List.drop_drop, ← Int.toNat_add low (Int.le_of_lt step), ← next]
        by_cases more : s.next H size p < s.len
        · exact ih (k + 1) _ (by omega) (pointAt_succ_iff.mpr ⟨p, at_, rfl, more⟩)
        · rw [List.drop_eq_nil_of_le (by omega)]
          exact .nil
    by_cases some_ : 0 < s.len
    · exact from_ n 0 0 (Nat.zero_add n) (if_pos some_)
    · have none_ : cells = [] := List.eq_nil_of_length_eq_zero (by rw [← holds.1]; omega)
      rw [none_]
      exact .nil
  · intro records
    have first {k : Nat} {p : Int} (at_ : s.pointAt H size k = some p) :=
      (records.at_ holds at_).2.first holds (by have := (records.at_ holds at_).1; omega)
        (pointAt_below at_)
    refine ⟨⟨⟨s.len, ?_⟩, fun k p at_ => (first at_).1⟩, ?_⟩
    · by_contra goes
      obtain ⟨p, at_⟩ := Option.ne_none_iff_exists'.mp goes
      have far := (records.at_ holds at_).1
      have below := pointAt_below at_
      omega
    · rintro ⟨k, p, at_, back⟩
      have onward := (first at_).2.1
      omega

end Traversal

end Cyclone.Theory
