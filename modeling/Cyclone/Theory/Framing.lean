/-
# Theory.Framing — records read out of memory in pieces

A record is a header of `H` cells and a body whose length `size` reads off the header; a negative
one moves the reader back.  A buffer is a memory with a length: the reader starts at 0 and goes
from record to record as long as it stands below the length, but nothing keeps a header or a body
from reaching past the ends of the buffer, where the memory holds anything.

The same data may lie in several buffers, which the reader takes one after another from
their starts, or in one.  `records_agree_iff`: the two readers see the same records, whatever lies
around the buffers, exactly when every piece is framed, that is, each record the reader comes to
lies inside its own piece.  A reader that never leaves a piece does not come to the later ones.
-/
import Mathlib.Logic.Nontrivial.Basic
import Mathlib.Data.List.Forall2

namespace Cyclone.Theory

set_option autoImplicit false

/-- A memory, of which the cells from 0 to `len` are meant. -/
structure Buffer (B : Type) where
  mem : Int → B
  len : Nat

/-- A record. -/
structure Frame.Record (B : Type) where
  header : List B
  body : List B
deriving DecidableEq, Repr

namespace Buffer

variable {B : Type} (H : Nat) (size : List B → Int)

/-- `k` cells from `a` on. -/
def read (s : Buffer B) (a : Int) (k : Nat) : List B := (List.range k).map fun i : Nat => s.mem (a + i)

/-- The length of the body of the record at `p`. -/
def sizeAt (s : Buffer B) (p : Int) : Int := size (s.read p H)

def record (s : Buffer B) (p : Int) : Frame.Record B :=
  ⟨s.read p H, s.read (p + H) (s.sizeAt H size p).toNat⟩

def next (s : Buffer B) (p : Int) : Int := p + H + s.sizeAt H size p

/-- The place of the `k`-th record the reader comes to. -/
def pointAt (s : Buffer B) : Nat → Option Int
  | 0 => if 0 < s.len then some 0 else none
  | k + 1 => (pointAt s k).bind fun p =>
    if s.next H size p < s.len then some (s.next H size p) else none

/-- The record at `p` lies in the buffer. -/
def Inside (s : Buffer B) (p : Int) : Prop :=
  0 ≤ p ∧ p + H ≤ s.len ∧ s.next H size p ≤ s.len

/-- The buffer holds these cells. -/
def Holds (s : Buffer B) (cells : List B) : Prop :=
  s.len = cells.length ∧ ∀ (i : Nat) (b : B), cells[i]? = some b → s.mem i = b

end Buffer

open Buffer

variable {B : Type} (H : Nat) (size : List B → Int)

/-- The buffer the reader stands in, when it leaves finished ones for the start of the next. -/
def seek : List (Buffer B) → Int → Option (Buffer B × List (Buffer B) × Int)
  | [], _ => none
  | s :: ss, p => if p < s.len then some (s, ss, p) else seek ss 0

/-- The `k`-th record from `p` on. -/
def recordAt : Nat → List (Buffer B) → Int → Option (Frame.Record B)
  | 0, ss, p => (seek ss p).map fun t => t.1.record H size t.2.2
  | k + 1, ss, p => (seek ss p).bind fun t => recordAt k (t.1 :: t.2.1) (t.1.next H size t.2.2)

section Steps

variable {s : Buffer B} {ss : List (Buffer B)} {p : Int}

theorem recordAt_zero (below : p < s.len) :
    recordAt H size 0 (s :: ss) p = some (s.record H size p) := by
  simp [recordAt, seek, below]

theorem recordAt_succ (below : p < s.len) (k : Nat) :
    recordAt H size (k + 1) (s :: ss) p = recordAt H size k (s :: ss) (s.next H size p) := by
  simp [recordAt, seek, below]

theorem recordAt_skip (done : s.len ≤ p) (k : Nat) :
    recordAt H size k (s :: ss) p = recordAt H size k ss 0 := by
  have found : seek (s :: ss) p = seek ss 0 := if_neg (by omega)
  cases k with
  | zero => simp only [recordAt, found]
  | succ k => simp only [recordAt, found]

theorem recordAt_nil (k : Nat) (p : Int) : recordAt H size k ([] : List (Buffer B)) p = none := by
  cases k with
  | zero => rfl
  | succ k => rfl

end Steps

/-! ## Buffers with the same cells -/

section Cells

variable {H size} {s t : Buffer B} {cells : List B}

variable {k : Nat}

theorem read_congr {a b : Int} (same : ∀ i : Nat, i < k → s.mem (a + i) = t.mem (b + i)) :
    s.read a k = t.read b k :=
  List.map_congr_left fun i member => same i (List.mem_range.mp member)

theorem read_inj {a b : Int} (same : s.read a k = t.read b k) {i : Nat} (low : i < k) :
    s.mem (a + i) = t.mem (b + i) := by
  have cell := congrArg (·[i]?) same
  simpa [Buffer.read, low] using cell

variable {p : Int}

/-- The places the reader comes to lie below the end. -/
theorem pointAt_below (at_ : s.pointAt H size k = some p) : p < s.len := by
  cases k with
  | zero =>
    rw [pointAt] at at_
    split at at_
    · cases at_; omega
    · cases at_
  | succ k =>
    obtain ⟨q, -, moved⟩ := Option.bind_eq_some_iff.mp at_
    split at moved
    · cases moved; omega
    · cases moved

/-- Where `s` stands in `t`: its cells are those of `t` from `off` on. -/
def Placed (s t : Buffer B) (off : Nat) : Prop :=
  off + s.len ≤ t.len ∧ ∀ i : Int, 0 ≤ i → i < s.len → s.mem i = t.mem (off + i)

variable {off : Nat}

theorem Placed.sizeAt (placed : Placed s t off) (low : 0 ≤ p) (high : p + H ≤ s.len) :
    t.sizeAt H size (off + p) = s.sizeAt H size p := by
  unfold Buffer.sizeAt
  rw [read_congr fun i bound => ?_]
  have := placed.2 (p + i) (by omega) (by omega)
  rw [Int.add_assoc, ← this]

theorem Placed.next (placed : Placed s t off) (inside : s.Inside H size p) :
    t.next H size (off + p) = off + s.next H size p := by
  rw [Buffer.next, Buffer.next, placed.sizeAt inside.1 inside.2.1]
  omega

theorem Placed.record (placed : Placed s t off) (inside : s.Inside H size p) :
    t.record H size (off + p) = s.record H size p := by
  obtain ⟨low, high, fits⟩ := inside
  rw [Buffer.next] at fits
  unfold Buffer.record
  rw [placed.sizeAt low high]
  congr 1
  · refine read_congr fun i bound => ?_
    have := placed.2 (p + i) (by omega) (by omega)
    rw [Int.add_assoc, ← this]
  · refine read_congr fun i bound => ?_
    have := placed.2 (p + H + i) (by omega) (by omega)
    rw [show (off : Int) + p + H + i = off + (p + H + i) by omega, ← this]

theorem Buffer.Holds.cell (holds : s.Holds cells) {i : Int} (low : 0 ≤ i) (high : i < s.len) :
    cells[i.toNat]? = some (s.mem i) := by
  obtain ⟨length, mem⟩ := holds
  have bound : i.toNat < cells.length := by omega
  have at_ := List.getElem?_eq_getElem bound
  have := mem _ _ at_
  rw [at_, ← this, Int.toNat_of_nonneg low]

/-- One piece of several, in a buffer that holds them all. -/
theorem Buffer.Holds.placed {before after : List B} (holds : s.Holds cells)
    (whole : t.Holds (before ++ cells ++ after)) : Placed s t before.length := by
  obtain ⟨length, mem⟩ := whole
  simp only [List.length_append] at length
  have len := holds.1
  refine ⟨by omega, fun i low high => ?_⟩
  have here := holds.cell low high
  have bound := (List.getElem?_eq_some_iff.mp here).1
  have there : (before ++ cells ++ after)[before.length + i.toNat]? = some (s.mem i) := by
    rw [List.append_assoc, List.getElem?_append_right (by omega), Nat.add_sub_cancel_left,
      List.getElem?_append_left bound, here]
  have := mem _ _ there
  rw [← this]
  congr 1
  omega

end Cells

/-! ## Framed pieces -/

section Framed

variable [Inhabited B]

/-- A buffer with these cells and nothing around them. -/
def Buffer.ofCells (cells : List B) : Buffer B where
  mem := fun i => (cells[i.toNat]?).getD default
  len := cells.length

/-- Each record the reader comes to lies inside the piece. -/
def Framed (cells : List B) : Prop :=
  ∀ k p, (Buffer.ofCells cells).pointAt H size k = some p → (Buffer.ofCells cells).Inside H size p

/-- The reader comes to the end of the piece. -/
def Ends (cells : List B) : Prop := ∃ k, (Buffer.ofCells cells).pointAt H size k = none

/-- Every piece the reader comes to is framed. -/
def WellFramed : List (List B) → Prop
  | [] => True
  | cells :: rest => Framed H size cells ∧ (Ends H size cells → WellFramed rest)

variable {H size} {s t : Buffer B} {cells : List B}

theorem Buffer.ofCells_holds (cells : List B) : (Buffer.ofCells cells).Holds cells :=
  ⟨rfl, fun i b at_ => by simp [Buffer.ofCells, at_]⟩

/-- How the reader ends. -/
theorem ends_iff : Ends H size cells ↔ cells = [] ∨
    ∃ k p, (Buffer.ofCells cells).pointAt H size k = some p ∧
      ((Buffer.ofCells cells).len : Int) ≤ (Buffer.ofCells cells).next H size p := by
  constructor
  · rintro ⟨k, ended⟩
    induction k with
    | zero =>
      left
      by_contra some_
      have pos : 0 < (Buffer.ofCells cells).len := List.length_pos_iff.mpr some_
      simp [pointAt, pos] at ended
    | succ k ih =>
      cases here : (Buffer.ofCells cells).pointAt H size k with
      | none => exact ih here
      | some p =>
        right
        refine ⟨k, p, here, ?_⟩
        by_contra below
        simp [pointAt, here, show (Buffer.ofCells cells).next H size p <
          (Buffer.ofCells cells).len by omega] at ended
  · rintro (rfl | ⟨k, p, here, done⟩)
    · exact ⟨0, rfl⟩
    · refine ⟨k + 1, ?_⟩
      simp [pointAt, here, show ¬ (Buffer.ofCells cells).next H size p <
        (Buffer.ofCells cells).len by omega]

/-- A buffer that holds a piece reads it as the piece alone does. -/
theorem Buffer.Holds.own (holds : s.Holds cells) : Placed (Buffer.ofCells cells) s 0 := by
  have whole : s.Holds ([] ++ cells ++ []) := by simpa using holds
  exact (Buffer.ofCells_holds cells).placed whole

/-! ### Framed pieces read alike -/

variable {before after : List B} {ss : List (Buffer B)}

/-- In the middle of a framed piece, when what follows it is read alike. -/
theorem recordAt_framed (holds : s.Holds cells) (whole : t.Holds (before ++ cells ++ after))
    (framed : Framed H size cells)
    (rest : Ends H size cells → ∀ k, recordAt H size k ss 0 =
      recordAt H size k [t] ((before ++ cells).length : Int))
    (k : Nat) : ∀ j p, (Buffer.ofCells cells).pointAt H size j = some p →
      recordAt H size k (s :: ss) p = recordAt H size k [t] (before.length + p) := by
  have own := holds.own
  have placed := (Buffer.ofCells_holds cells).placed whole
  have fits := placed.1
  have length : s.len = (Buffer.ofCells cells).len := holds.1
  induction k with
  | zero =>
    intro j p at_
    have below := pointAt_below at_
    have inside := framed j p at_
    have record := own.record inside
    rw [Int.natCast_zero, Int.zero_add] at record
    rw [recordAt_zero H size (by omega), recordAt_zero H size (by omega), record,
      placed.record inside]
  | succ k ih =>
    intro j p at_
    have below := pointAt_below at_
    have inside := framed j p at_
    have next := own.next inside
    rw [Int.natCast_zero, Int.zero_add, Int.zero_add] at next
    rw [recordAt_succ H size (by omega), recordAt_succ H size (by omega), next,
      placed.next inside]
    by_cases more : (Buffer.ofCells cells).next H size p < (Buffer.ofCells cells).len
    · refine ih (j + 1) _ ?_
      simp [pointAt, at_, more]
    · have done : (Buffer.ofCells cells).next H size p = (Buffer.ofCells cells).len := by
        have := inside.2.2
        omega
      rw [recordAt_skip H size (by omega), rest (ends_iff.mpr (.inr ⟨j, p, at_, by omega⟩)), done,
        List.length_append]
      rfl

theorem recordAt_wellFramed {pieces : List (List B)} (framed : WellFramed H size pieces)
    (held : List.Forall₂ Buffer.Holds ss pieces) (whole : t.Holds (before ++ pieces.flatten)) :
    ∀ k, recordAt H size k ss 0 = recordAt H size k [t] before.length := by
  induction held generalizing before with
  | nil =>
    intro k
    have length := whole.1
    rw [List.flatten_nil, List.append_nil] at length
    rw [recordAt_skip H size (by omega)]
  | @cons s cells ss pieces holds held ih =>
    intro k
    rw [List.flatten_cons, ← List.append_assoc] at whole
    have rest (ended : Ends H size cells) := ih (framed.2 ended) whole
    by_cases empty : cells = []
    · have ended : Ends H size cells := ends_iff.mpr (.inl empty)
      have length := holds.1
      rw [recordAt_skip H size (by rw [length, empty]; simp), rest ended k, empty,
        List.append_nil]
    · have start : (Buffer.ofCells cells).pointAt H size 0 = some 0 :=
        if_pos (List.length_pos_iff.mpr empty)
      have alike := recordAt_framed holds whole framed.1 rest k 0 0 start
      rwa [Int.add_zero] at alike

/-! ### Pieces that read alike are framed -/

/-- A buffer around a piece that nowhere continues as `t` does. -/
theorem exists_spoilt [Nontrivial B] (cells : List B) (t : Buffer B) (off : Nat) :
    ∃ s : Buffer B, s.Holds cells ∧
      ∀ i : Int, i < 0 ∨ (s.len : Int) ≤ i → s.mem i ≠ t.mem (off + i) := by
  classical
  choose other differs using fun b : B => exists_ne b
  refine ⟨⟨fun i => if 0 ≤ i ∧ i < cells.length then (cells[i.toNat]?).getD default
    else other (t.mem (off + i)), cells.length⟩, ⟨rfl, fun i b at_ => ?_⟩, fun i outside => ?_⟩
  · have bound := (List.getElem?_eq_some_iff.mp at_).1
    simp only
    rw [if_pos (by omega), Int.toNat_natCast, at_]
    rfl
  · simp only at outside ⊢
    rw [if_neg (by omega)]
    exact differs _

omit [Inhabited B] in
theorem inside_of_alike (pos : 0 < H) {off : Nat} {p : Int}
    (spoilt : ∀ i : Int, i < 0 ∨ (s.len : Int) ≤ i → s.mem i ≠ t.mem (off + i))
    (alike : s.record H size p = t.record H size (off + p)) : s.Inside H size p := by
  obtain ⟨header, body⟩ := Frame.Record.mk.inj alike
  have sizes : t.sizeAt H size (off + p) = s.sizeAt H size p := by
    rw [Buffer.sizeAt, Buffer.sizeAt, header]
  rw [sizes] at body
  have inHeader (i : Nat) (bound : i < H) : 0 ≤ p + i ∧ p + i < s.len := by
    by_contra outside
    refine spoilt (p + i) (by omega) ?_
    have cell := read_inj header bound
    rwa [Int.add_assoc] at cell
  have inBody (i : Nat) (bound : i < (s.sizeAt H size p).toNat) : p + H + i < s.len := by
    by_contra outside
    refine spoilt (p + H + i) (by omega) ?_
    have cell := read_inj body bound
    rwa [show (off : Int) + p + H + i = off + (p + H + i) by omega] at cell
  have first := inHeader 0 pos
  have last := inHeader (H - 1) (by omega)
  refine ⟨by omega, by omega, ?_⟩
  rw [Buffer.next]
  by_cases forward : 0 < s.sizeAt H size p
  · have end_ := inBody ((s.sizeAt H size p).toNat - 1) (by omega)
    omega
  · omega

/-- A piece in a spoilt buffer that is read as in `t` is framed, and what follows it is read alike. -/
theorem framed_of_alike (pos : 0 < H) (holds : s.Holds cells)
    (whole : t.Holds (before ++ cells ++ after))
    (spoilt : ∀ i : Int, i < 0 ∨ (s.len : Int) ≤ i → s.mem i ≠ t.mem (before.length + i))
    (alike : ∀ k, recordAt H size k (s :: ss) 0 = recordAt H size k [t] before.length) :
    Framed H size cells ∧ (Ends H size cells → ∀ k, recordAt H size k ss 0 =
      recordAt H size k [t] ((before ++ cells).length : Int)) := by
  have placed := holds.placed whole
  have fits := placed.1
  have length : s.len = (Buffer.ofCells cells).len := holds.1
  have own : Placed s (Buffer.ofCells cells) 0 := by
    have cellsWhole : (Buffer.ofCells cells).Holds ([] ++ cells ++ []) := by
      simpa using Buffer.ofCells_holds cells
    exact holds.placed cellsWhole
  have inside {p : Int} (below : p < s.len) (here : ∀ k, recordAt H size k (s :: ss) p =
      recordAt H size k [t] (before.length + p)) : s.Inside H size p := by
    refine inside_of_alike pos spoilt ?_
    have first := here 0
    rw [recordAt_zero H size below, recordAt_zero H size (by omega)] at first
    exact Option.some.inj first
  have nextAlike {p : Int} (below : p < s.len) (here : ∀ k, recordAt H size k (s :: ss) p =
      recordAt H size k [t] (before.length + p)) (k : Nat) :
      recordAt H size k (s :: ss) (s.next H size p) =
        recordAt H size k [t] (before.length + s.next H size p) := by
    have later := here (k + 1)
    rw [recordAt_succ H size below, recordAt_succ H size (by omega),
      placed.next (inside below here)] at later
    exact later
  have sameNext {p : Int} (in_ : s.Inside H size p) :
      (Buffer.ofCells cells).next H size p = s.next H size p := by
    have next := own.next in_
    rwa [Int.natCast_zero, Int.zero_add, Int.zero_add] at next
  have reached : ∀ j p, (Buffer.ofCells cells).pointAt H size j = some p →
      ∀ k, recordAt H size k (s :: ss) p = recordAt H size k [t] (before.length + p) := by
    intro j
    induction j with
    | zero =>
      intro p at_
      rw [pointAt] at at_
      split at at_
      · cases at_
        simpa using alike
      · cases at_
    | succ j ih =>
      intro p at_
      obtain ⟨q, before_, moved⟩ := Option.bind_eq_some_iff.mp at_
      have below := length ▸ pointAt_below before_
      split at moved
      · cases moved
        rw [sameNext (inside below (ih q before_))]
        exact nextAlike below (ih q before_)
      · cases moved
  constructor
  · intro j p at_
    have below := length ▸ pointAt_below at_
    have in_ := inside below (reached j p at_)
    exact ⟨in_.1, length ▸ in_.2.1, by rw [sameNext in_, ← length]; exact in_.2.2⟩
  · intro ended k
    rcases ends_iff.mp ended with rfl | ⟨j, p, at_, done⟩
    · have empty : s.len = 0 := holds.1
      have here := alike k
      rw [recordAt_skip H size (by omega)] at here
      rw [here, List.append_nil]
    · have below := length ▸ pointAt_below at_
      have in_ := inside below (reached j p at_)
      have end_ := nextAlike below (reached j p at_) k
      rw [sameNext in_] at done
      have last : s.next H size p = s.len := by
        have := in_.2.2
        omega
      rw [last, recordAt_skip H size (by omega)] at end_
      rw [end_, List.length_append, Int.natCast_add, ← holds.1]

theorem wellFramed_of_alike [Nontrivial B] (size : List B → Int) (pos : 0 < H) (pieces : List (List B))
    (whole : t.Holds (before ++ pieces.flatten)) :
    ∃ ss, List.Forall₂ Buffer.Holds ss pieces ∧
      ((∀ k, recordAt H size k ss 0 = recordAt H size k [t] before.length) →
        WellFramed H size pieces) := by
  induction pieces generalizing before with
  | nil => exact ⟨[], .nil, fun _ => trivial⟩
  | cons cells pieces ih =>
    rw [List.flatten_cons, ← List.append_assoc] at whole
    obtain ⟨ss, held, rest⟩ := ih whole
    obtain ⟨s, holds, spoilt⟩ := exists_spoilt cells t before.length
    refine ⟨s :: ss, .cons holds held, fun alike => ?_⟩
    obtain ⟨framed, after⟩ := framed_of_alike pos holds whole spoilt alike
    exact ⟨framed, fun ended => rest (after ended)⟩

/-- **Reading in pieces.**  Pieces and their concatenation are read alike, whatever lies around
them, exactly when every piece the reader comes to is framed. -/
theorem records_agree_iff [Nontrivial B] (pos : 0 < H) (pieces : List (List B)) :
    (∀ ss t, List.Forall₂ Buffer.Holds ss pieces → t.Holds pieces.flatten →
      ∀ k, recordAt H size k ss 0 = recordAt H size k [t] 0) ↔ WellFramed H size pieces := by
  constructor
  · intro alike
    have whole : (Buffer.ofCells pieces.flatten).Holds ([] ++ pieces.flatten) :=
      Buffer.ofCells_holds _
    obtain ⟨ss, held, framed⟩ := wellFramed_of_alike size pos pieces whole
    exact framed (alike ss _ held whole)
  · intro framed ss t held whole
    have all : t.Holds ([] ++ pieces.flatten) := whole
    exact recordAt_wellFramed framed held all

end Framed

end Cyclone.Theory
