/-
# Theory.CacheLine — the lines a write-back reaches

A cache is written back a line at a time: an instruction that names any address writes
back the whole line of `width` bytes the address lies in.  A list of such addresses stands
for what was written back (`WrittenBack`).

`flushRange` is the usual loop over a range: it rounds the first address down to its
line and steps a line at a time.  It reaches the lines of the range
(`writtenBack_flushRange`) and no others.
-/
import Mathlib.Data.Nat.ModEq
import Mathlib.Tactic.Common

namespace Cyclone.Theory

set_option autoImplicit false

variable {width : Nat}

/-- The line an address lies in. -/
def lineOf (width addr : Nat) : Nat := addr / width

/-- Offsets from the start of a line. -/
theorem lineOf_add {base : Nat} (aligned : width ∣ base) (offset : Nat) :
    lineOf width (base + offset) = lineOf width base + lineOf width offset :=
  Nat.add_div_of_dvd_right aligned

/-- The line of `addr` was named by one of the write-backs. -/
def WrittenBack (width : Nat) (flushed : List Nat) (addr : Nat) : Prop :=
  ∃ a ∈ flushed, lineOf width a = lineOf width addr

/-- Every byte of a range is in such a line. -/
def RangeWrittenBack (width : Nat) (flushed : List Nat) (addr len : Nat) : Prop :=
  ∀ b, addr ≤ b → b < addr + len → WrittenBack width flushed b

theorem writtenBack_append {flushed flushed' : List Nat} {addr : Nat} :
    WrittenBack width (flushed ++ flushed') addr ↔
      WrittenBack width flushed addr ∨ WrittenBack width flushed' addr := by
  unfold WrittenBack
  simp only [List.mem_append, or_and_right, exists_or]

/-- Write-backs from `addr` on, a line at a time, as long as they start below `stop`. -/
def flushFrom (width stop : Nat) : Nat → Nat → List Nat
  | 0, _ => []
  | fuel + 1, addr => if addr < stop then addr :: flushFrom width stop fuel (addr + width) else []

/-- The write-backs of a range, from the start of its first line on. -/
def flushRange (width addr len : Nat) : List Nat :=
  flushFrom width (addr + len) (len + 1) (addr / width * width)

theorem mem_flushFrom {stop fuel start a : Nat} :
    a ∈ flushFrom width stop fuel start ↔
      ∃ k < fuel, a = start + k * width ∧ a < stop := by
  induction fuel generalizing start with
  | zero => simp [flushFrom]
  | succ fuel ih =>
    rw [flushFrom]
    split
    · rename_i below
      rw [List.mem_cons, ih]
      constructor
      · rintro (rfl | ⟨k, less, rfl, inside⟩)
        · exact ⟨0, Nat.succ_pos fuel, by simp, below⟩
        · exact ⟨k + 1, Nat.succ_lt_succ less, by rw [Nat.succ_mul]; omega, inside⟩
      · rintro ⟨k, less, rfl, inside⟩
        cases k with
        | zero => exact Or.inl (by simp)
        | succ k =>
          exact Or.inr ⟨k, Nat.lt_of_succ_lt_succ less, by rw [Nat.succ_mul]; omega, inside⟩
    · rename_i beyond
      constructor
      · intro member
        cases member
      · rintro ⟨k, -, rfl, inside⟩
        omega

/-- The loop reaches exactly the lines from the first one of the range to the last that starts
below its end; the turns allowed to it are enough. -/
theorem writtenBack_flushRange (pos : 0 < width) (addr len b : Nat) :
    WrittenBack width (flushRange width addr len) b ↔
      lineOf width addr ≤ lineOf width b ∧ lineOf width b * width < addr + len := by
  unfold WrittenBack flushRange lineOf
  simp only [mem_flushFrom]
  constructor
  · rintro ⟨a, ⟨k, -, rfl, inside⟩, same⟩
    have line : (addr / width * width + k * width) / width = addr / width + k := by
      rw [← Nat.add_mul, Nat.mul_div_cancel _ pos]
    rw [line] at same
    rw [← same, Nat.add_mul]
    exact ⟨Nat.le_add_right _ _, inside⟩
  · rintro ⟨low, inside⟩
    obtain ⟨k, line⟩ := Nat.exists_eq_add_of_le low
    rw [line, Nat.add_mul] at inside
    refine ⟨_, ⟨k, ?_, rfl, inside⟩, ?_⟩
    · -- a line is at least a byte, and the first one ends behind `addr`
      have start : addr < addr / width * width + width := by
        have := Nat.lt_div_mul_add pos (a := addr)
        omega
      have wide : k ≤ k * width := Nat.le_mul_of_pos_right k pos
      have most : k * width < len + width := by omega
      by_contra many
      have next : (len + 1) * width ≤ k * width := Nat.mul_le_mul_right width (by omega)
      have grows : len ≤ len * width := Nat.le_mul_of_pos_right len pos
      rw [Nat.succ_mul] at next
      omega
    · rw [← Nat.add_mul, Nat.mul_div_cancel _ pos, line]

/-- A range is written back by its own loop. -/
theorem rangeWrittenBack_flushRange (pos : 0 < width) (addr len : Nat) :
    RangeWrittenBack width (flushRange width addr len) addr len := by
  intro b low high
  apply (writtenBack_flushRange pos addr len b).mpr
  refine ⟨Nat.div_le_div_right low, ?_⟩
  have start : lineOf width b * width ≤ b := Nat.div_mul_le_self b width
  omega

end Cyclone.Theory
