/-
# Pmemds.PriorityQueue — the top-k queue of `persistent_priority_queue.hpp`

The queue keeps the `k` best elements in a min-heap and the rest in a max-heap.  A key map holds the
global position of each key: below `k` in the min-heap, from `k` on in the max-heap.  Both heaps
sink an element along the children `2 * idx + 1` and `2 * idx + 2` but let it rise along
`parent_of(idx) = idx / 2`, which is the parent only of odd positions.

The two heaps' functions are mirror images, and so are `increase_prio` and `decrease_prio`: one heap
is home to elements that move in the direction of the change, and an element of the other may
climb to its root and change places with the root at home.  `Side` has what differs.

A priority update that does not exchange roots returns without committing its transaction.  With the
undo log of the stock library the vector is then rolled back, while the key map, whose entries are
plain stores, and the elements, which are not in the pool, keep their changes; with the library
patched to write no log nothing is rolled back.  `undoLog` says which.
-/
import Cyclone.Theory.Heap
import Mathlib.Data.Int.Order.Basic
import Mathlib.Logic.Function.Basic
import Mathlib.Algebra.Group.Nat.Defs

namespace Cyclone.Pmemds

open Cyclone.Theory

set_option autoImplicit false

/-! ## The heaps -/

/-- `pqelem_st`. -/
structure Elem where
  key : Nat
  priority : Nat
deriving DecidableEq, Repr

/-- `keymap`: key to global index. -/
abbrev KeyMap := Nat → Option Nat

/-- One of the vectors, with the key map. -/
structure Heap where
  elems : List Elem
  keymap : KeyMap

/-- What tells the heaps apart: the comparison, and the global index of the first place. -/
structure Side where
  before : Nat → Nat → Bool
  base : Nat

/-- The min-heap: `mintog`. -/
def minSide : Side := ⟨fun p q => decide (p < q), 0⟩

/-- The max-heap: `maxtog`. -/
def maxSide (k : Nat) : Side := ⟨fun p q => decide (p > q), k⟩

def rightChild (idx : Nat) : Nat := 2 * idx + 1

def leftChild (idx : Nat) : Nat := 2 * idx + 2

def parentOf (idx : Nat) : Nat := idx / 2

namespace Side

/-- `swap`: nothing when `at` throws; it gives up at a key that is not in the map. -/
def swap (s : Side) (h : Heap) (idx1 idx2 : Nat) : Option Heap := do
  let elem1 ← h.elems[idx1]?
  let elem2 ← h.elems[idx2]?
  match h.keymap elem1.key with
  | none => some h
  | some _ =>
    let keymap := Function.update h.keymap elem1.key (some (s.base + idx2))
    match keymap elem2.key with
    | none => some { h with keymap := keymap }
    | some _ =>
      some { elems := (h.elems.set idx1 elem2).set idx2 elem1
             keymap := Function.update keymap elem2.key (some (s.base + idx1)) }

/-- The loop that moves an element towards the root; `fuel` bounds its turns. -/
def siftUp (s : Side) : Nat → Heap → Nat → Option Heap
  | 0, h, _ => some h
  | fuel + 1, h, idx =>
    if idx = 0 then some h
    else do
      let elem ← h.elems[idx]?
      let parent ← h.elems[parentOf idx]?
      if s.before elem.priority parent.priority then do
        let h' ← s.swap h idx (parentOf idx)
        s.siftUp fuel h' (parentOf idx)
      else some h

/-- `child` if it is in range and goes before `idx`, and else `idx`. -/
def choose (s : Side) (h : Heap) (child idx : Nat) : Option Nat :=
  if child < h.elems.length then do
    let c ← h.elems[child]?
    let e ← h.elems[idx]?
    some (if s.before c.priority e.priority then child else idx)
  else some idx

/-- `min_heapify` and `max_heapify`; `fuel` bounds the recursion. -/
def heapify (s : Side) : Nat → Heap → Nat → Option Heap
  | 0, h, _ => some h
  | fuel + 1, h, idx => do
      let best ← s.choose h (rightChild idx) idx
      let best ← s.choose h (leftChild idx) best
      if best ≠ idx then do
        let h' ← s.swap h best idx
        s.heapify fuel h' best
      else some h

end Side

/-! ## The queue -/

/-- `persistent_priority_queue`. -/
structure Queue where
  min : List Elem
  max : List Elem
  keymap : KeyMap

/-- A priority update, seen from the heap that is home to the elements it moves. -/
structure Halves where
  home : List Elem
  away : List Elem
  keymap : KeyMap

/-- An element at home gets a new priority and sinks. -/
def sink (home : Side) (new : Nat → Nat) (h : Heap) (idx : Nat) : Option Heap := do
  let elem ← h.elems[idx]?
  home.heapify h.elems.length { h with elems := h.elems.set idx ⟨elem.key, new elem.priority⟩ } idx

/-- An element of the other heap gets a new priority and climbs; when the root of its heap then
goes before the root at home, the two change places.  Only that path commits. -/
def climb (undoLog : Bool) (home away : Side) (new : Nat → Nat) (w : Halves) (idx : Nat) :
    Option (Halves × Int) := do
  let elem ← w.away[idx]?
  let changed := w.away.set idx ⟨elem.key, new elem.priority⟩
  let a ← away.siftUp idx ⟨changed, w.keymap⟩ idx
  let temp ← a.elems[0]?
  let root ← w.home[0]?
  if away.before temp.priority root.priority then
    match a.keymap root.key with
    | none =>
      some ({ w with away := if undoLog then changed else a.elems.set 0 root
                     keymap := a.keymap }, -1)
    | some _ =>
      let keymap := Function.update a.keymap root.key (some away.base)
      match keymap temp.key with
      | none =>
        some ({ home := if undoLog then w.home else w.home.set 0 temp
                away := if undoLog then changed else a.elems.set 0 root
                keymap := keymap }, -1)
      | some _ => do
          let h ← home.heapify w.home.length
            ⟨w.home.set 0 temp, Function.update keymap temp.key (some home.base)⟩ 0
          some (⟨h.elems, a.elems.set 0 root, h.keymap⟩, 0)
  else some ({ w with away := if undoLog then changed else a.elems, keymap := a.keymap }, 0)

/-- `priority += delta`. -/
def raised (delta p : Nat) : Nat := (p + delta) % 2 ^ 64

/-- `priority -= delta`. -/
def lowered (delta p : Nat) : Nat := (p + (2 ^ 64 - delta % 2 ^ 64)) % 2 ^ 64

namespace Queue

def empty : Queue := ⟨[], [], fun _ => none⟩

/-- `increase_prio`, with the result it returns. -/
def increasePrio (undoLog : Bool) (k : Nat) (q : Queue) (key delta : Nat) : Option (Queue × Int) :=
  match q.keymap key with
  | none => some (q, -1)
  | some idx =>
    if idx < k then do
      let h ← sink minSide (raised delta) ⟨q.min, q.keymap⟩ idx
      some (⟨h.elems, q.max, h.keymap⟩, 0)
    else do
      let (w, ret) ← climb undoLog minSide (maxSide k) (raised delta)
        ⟨q.min, q.max, q.keymap⟩ (idx - k)
      some (⟨w.home, w.away, w.keymap⟩, ret)

/-- `decrease_prio`, with the result it returns. -/
def decreasePrio (undoLog : Bool) (k : Nat) (q : Queue) (key delta : Nat) : Option (Queue × Int) :=
  match q.keymap key with
  | none => some (q, -1)
  | some idx =>
    if idx < k then do
      let (w, ret) ← climb undoLog (maxSide k) minSide (lowered delta)
        ⟨q.max, q.min, q.keymap⟩ idx
      some (⟨w.away, w.home, w.keymap⟩, ret)
    else do
      let h ← sink (maxSide k) (lowered delta) ⟨q.max, q.keymap⟩ (idx - k)
      some (⟨q.min, h.elems, h.keymap⟩, 0)

/-- `insert`, with the result it returns.  A key that is present is written to `mintog` of its
place in each of the three cases. -/
def insert (undoLog : Bool) (k : Nat) (q : Queue) (key priority : Nat) : Option (Queue × Int) :=
  let elem : Elem := ⟨key, priority⟩
  if q.min.length < k then do
    let idx := q.min.length
    let h ← minSide.siftUp idx ⟨q.min ++ [elem], Function.update q.keymap key (some idx)⟩ idx
    some (⟨h.elems, q.max, h.keymap⟩, 0)
  else do
    let minimum ← q.min[0]?
    let idx := q.max.length
    if minimum.priority > priority then do
      let place := if (q.keymap key).isNone then k + idx else idx
      let h ← (maxSide k).siftUp idx
        ⟨q.max ++ [elem], Function.update q.keymap key (some place)⟩ idx
      some (⟨q.min, h.elems, h.keymap⟩, 0)
    else
      match q.keymap minimum.key with
      | none => some ({ q with max := if undoLog then q.max else q.max ++ [minimum] }, -1)
      | some _ => do
          let h ← (maxSide k).siftUp idx
            ⟨q.max ++ [minimum], Function.update q.keymap minimum.key (some (k + idx))⟩ idx
          let m ← minSide.heapify q.min.length
            ⟨q.min.set 0 elem, Function.update h.keymap key (some 0)⟩ 0
          some (⟨m.elems, h.elems, m.keymap⟩, 0)

/-- `read_topK`: the keys it writes to the array. -/
def readTopK (q : Queue) : List Nat := q.min.map Elem.key

end Queue

variable {delta : Nat}

theorem raised_eq {p : Nat} (inRange : p + delta < 2 ^ 64) : raised delta p = p + delta :=
  Nat.mod_eq_of_lt inRange

theorem lowered_eq {p : Nat} (enough : delta ≤ p) (inRange : p < 2 ^ 64) :
    lowered delta p = p - delta := by
  rw [lowered, Nat.mod_eq_of_lt (Nat.lt_of_le_of_lt enough inRange),
    show p + (2 ^ 64 - delta) = p - delta + 2 ^ 64 by omega, Nat.add_mod_right,
    Nat.mod_eq_of_lt (by omega)]

/-! ## The key map follows the moves -/

/-- The key map has the position of every element of the heap. -/
def Tracks (s : Side) (h : Heap) : Prop :=
  ∀ i e, h.elems[i]? = some e → h.keymap e.key = some (s.base + i)

namespace Tracks

variable {s : Side} {h : Heap}

/-- A heap whose positions are tracked holds a key once. -/
theorem key_inj (tracks : Tracks s h) {i j : Nat} {e f : Elem} (at_ : h.elems[i]? = some e)
    (at' : h.elems[j]? = some f) (same : e.key = f.key) : i = j := by
  have here := tracks i e at_
  rw [same, tracks j f at'] at here
  have := Option.some_inj.mp here
  omega

theorem nodup (tracks : Tracks s h) : (h.elems.map Elem.key).Nodup := by
  rw [List.Nodup, List.pairwise_map, List.pairwise_iff_getElem]
  intro i j low low' less same
  exact Nat.ne_of_lt less
    (tracks.key_inj (List.getElem?_eq_getElem low) (List.getElem?_eq_getElem low') same)

end Tracks

/-- A rearrangement of a heap that the key map has followed. -/
structure Moves (s : Side) (h h' : Heap) : Prop where
  tracks : Tracks s h'
  perm : h'.elems.Perm h.elems
  others : ∀ key, (∀ e ∈ h.elems, e.key ≠ key) → h'.keymap key = h.keymap key

namespace Moves

variable {s : Side} {h h' h'' : Heap}

theorem refl (tracks : Tracks s h) : Moves s h h := ⟨tracks, .refl _, fun _ _ => rfl⟩

theorem trans (first : Moves s h h') (second : Moves s h' h'') : Moves s h h'' :=
  ⟨second.tracks, second.perm.trans first.perm, fun key absent =>
    (second.others key fun e member => absent e (first.perm.mem_iff.mp member)).trans
      (first.others key absent)⟩

theorem length (moves : Moves s h h') : h'.elems.length = h.elems.length := moves.perm.length_eq

/-- The entries that change are those of the elements that are at another place. -/
theorem keymap_ne_iff (tracks : Tracks s h) (moves : Moves s h h') (key : Nat) :
    h'.keymap key ≠ h.keymap key ↔
      ∃ (e : Elem) (i j : Nat), e.key = key ∧ h.elems[i]? = some e ∧ h'.elems[j]? = some e ∧ i ≠ j := by
  constructor
  · intro changed
    obtain ⟨e, member, rfl⟩ : ∃ e ∈ h.elems, e.key = key := by
      by_contra absent
      exact changed (moves.others key fun e member same => absent ⟨e, member, same⟩)
    obtain ⟨i, at_⟩ := List.mem_iff_getElem?.mp member
    obtain ⟨j, at'⟩ := List.mem_iff_getElem?.mp (moves.perm.mem_iff.mpr member)
    refine ⟨e, i, j, rfl, at_, at', ?_⟩
    rintro rfl
    exact changed ((moves.tracks i e at').trans (tracks i e at_).symm)
  · rintro ⟨e, i, j, rfl, at_, at', ne⟩ same
    rw [moves.tracks j e at', tracks i e at_, Option.some_inj] at same
    omega

/-- Where the elements are says what the map is. -/
theorem eq_of_elems {h₁ h₂ : Heap} (moves : Moves s h h₁) (moves' : Moves s h h₂)
    (same : h₁.elems = h₂.elems) : h₁ = h₂ := by
  have keymap : h₁.keymap = h₂.keymap := by
    funext key
    by_cases present : ∃ e ∈ h.elems, e.key = key
    · obtain ⟨e, member, rfl⟩ := present
      obtain ⟨i, at_⟩ := List.mem_iff_getElem?.mp (moves.perm.mem_iff.mpr member)
      rw [moves.tracks i e at_, moves'.tracks i e (same ▸ at_)]
    · have absent : ∀ e ∈ h.elems, e.key ≠ key := fun e member same => present ⟨e, member, same⟩
      rw [moves.others key absent, moves'.others key absent]
  cases h₁
  cases h₂
  simp only [Heap.mk.injEq]
  exact ⟨same, keymap⟩

end Moves

namespace Side

variable {s : Side} {h : Heap}

theorem swap_spec (tracks : Tracks s h) {i j : Nat} (low : i < h.elems.length)
    (low' : j < h.elems.length) :
    ∃ h', s.swap h i j = some h' ∧ h'.elems = swapAt h.elems i j ∧ Moves s h h' := by
  have at_ := List.getElem?_eq_getElem low
  have at' := List.getElem?_eq_getElem low'
  generalize h.elems[i] = x at at_
  generalize h.elems[j] = y at at'
  have here := tracks i x at_
  have there := tracks j y at'
  have known : Function.update h.keymap x.key (some (s.base + j)) y.key = some (s.base + j) := by
    by_cases same : y.key = x.key
    · rw [same, Function.update_self]
    · rw [Function.update_of_ne same, there]
  have swapped : swapAt h.elems i j = (h.elems.set i y).set j x := swapAt_eq at_ at'
  refine ⟨⟨swapAt h.elems i j, Function.update (Function.update h.keymap x.key (some (s.base + j)))
    y.key (some (s.base + i))⟩, ?_, rfl, ?_, swapAt_perm _ _ _, ?_⟩
  · simp only [swap, at_, at', here, known, swapped, Option.bind_eq_bind, Option.bind_some]
  · intro m e found
    simp only at found ⊢
    by_cases atI : m = i
    · subst atI
      rw [getElem?_swapAt_left low low', at'] at found
      cases found
      exact Function.update_self _ _ _
    by_cases atJ : m = j
    · subst atJ
      rw [getElem?_swapAt_right low low', at_] at found
      cases found
      by_cases same : x.key = y.key
      · exact absurd (tracks.key_inj at' at_ same.symm) atI
      · rw [Function.update_of_ne same, Function.update_self]
    rw [getElem?_swapAt_of_ne atI atJ] at found
    rw [Function.update_of_ne, Function.update_of_ne, tracks m e found]
    · exact fun same => atI (tracks.key_inj found at_ same)
    · exact fun same => atJ (tracks.key_inj found at' same)
  · intro key absent
    simp only
    rw [Function.update_of_ne, Function.update_of_ne]
    · exact (absent x (List.mem_of_getElem? at_)).symm
    · exact (absent y (List.mem_of_getElem? at')).symm

/-- The elements after `siftUp`, when no key is missing. -/
def rise (s : Side) : Nat → List Elem → Nat → List Elem
  | 0, l, _ => l
  | fuel + 1, l, idx =>
    if idx = 0 then l
    else
      match l[idx]?, l[parentOf idx]? with
      | some elem, some parent =>
        if s.before elem.priority parent.priority then
          s.rise fuel (swapAt l idx (parentOf idx)) (parentOf idx)
        else l
      | _, _ => l

variable {idx : Nat}

theorem siftUp_spec (fuel : Nat) (tracks : Tracks s h) (low : idx < h.elems.length) :
    ∃ h', s.siftUp fuel h idx = some h' ∧ h'.elems = s.rise fuel h.elems idx ∧ Moves s h h' := by
  induction fuel generalizing h idx with
  | zero => exact ⟨h, rfl, rfl, .refl tracks⟩
  | succ fuel ih =>
    rw [siftUp, rise]
    split
    · exact ⟨h, rfl, rfl, .refl tracks⟩
    · have above : parentOf idx < h.elems.length := Nat.lt_of_le_of_lt (Nat.div_le_self _ _) low
      simp only [List.getElem?_eq_getElem low, List.getElem?_eq_getElem above,
        Option.bind_eq_bind, Option.bind_some]
      split
      · obtain ⟨h₁, swapped, elems, moves⟩ := swap_spec tracks low above
        obtain ⟨h₂, sifted, elems', moves'⟩ := ih moves.tracks
          (show parentOf idx < h₁.elems.length by rw [moves.length]; exact above)
        refine ⟨h₂, ?_, ?_, moves.trans moves'⟩
        · rw [swapped]
          exact sifted
        · rw [elems', elems]
      · exact ⟨h, rfl, rfl, .refl tracks⟩

/-- The comparison of the side is that of a rank. -/
def Ranks (s : Side) (rank : Nat → Int) : Prop := ∀ p q, s.before p q = true ↔ rank p < rank q

theorem ranks_min : minSide.Ranks fun p => p := by
  intro p q
  simp [minSide]

theorem ranks_max (k : Nat) : (maxSide k).Ranks fun p => -p := by
  intro p q
  simp [maxSide]

variable {rank : Nat → Int}

theorem choose_eq (ranks : s.Ranks rank) {child : Nat} (low : idx < h.elems.length) :
    s.choose h child idx =
      some (if ranksBelow (fun e : Elem => rank e.priority) h.elems child idx then child else idx) := by
  unfold choose ranksBelow
  rw [List.getElem?_eq_getElem low]
  split
  · rename_i inside
    simp only [List.getElem?_eq_getElem inside, Option.bind_eq_bind, Option.bind_some,
      decide_eq_true_eq, ranks _ _]
  · rename_i outside
    rw [List.getElem?_eq_none (by omega)]
    simp

/-- `heapify` is the sinking of the library, and the key map follows it. -/
theorem heapify_spec (ranks : s.Ranks rank) (fuel : Nat) (tracks : Tracks s h)
    (low : idx < h.elems.length) :
    ∃ h', s.heapify fuel h idx = some h' ∧
      h'.elems = Theory.heapify (fun e : Elem => rank e.priority) fuel h.elems idx ∧
      Moves s h h' := by
  induction fuel generalizing h idx with
  | zero => exact ⟨h, rfl, rfl, .refl tracks⟩
  | succ fuel ih =>
    have spec := lowest_spec (fun e : Elem => rank e.priority) h.elems idx
    have inside : lowest (fun e : Elem => rank e.priority) h.elems idx < h.elems.length := by
      rcases spec with ⟨stays, -⟩ | ⟨x, y, -, at_, -⟩
      · rw [stays]
        exact low
      · exact (List.getElem?_eq_some_iff.mp at_).1
    have first : (if ranksBelow (fun e : Elem => rank e.priority) h.elems (rightChild idx) idx
        then rightChild idx else idx) < h.elems.length := by
      split
      · rename_i found
        obtain ⟨x, y, at_, -⟩ := ranksBelow_iff.mp found
        exact (List.getElem?_eq_some_iff.mp at_).1
      · exact low
    have best : (s.choose h (rightChild idx) idx).bind (s.choose h (leftChild idx)) =
        some (lowest (fun e : Elem => rank e.priority) h.elems idx) := by
      rw [choose_eq ranks low, Option.bind_some, choose_eq ranks first]
      rfl
    rw [heapify, Theory.heapify, Option.bind_eq_bind, ← Option.bind_assoc, best]
    simp only [Option.bind_some]
    generalize lowest (fun e : Elem => rank e.priority) h.elems idx = b at *
    by_cases stays : b = idx
    · rw [if_neg (not_not.mpr stays), if_pos stays]
      exact ⟨h, rfl, rfl, .refl tracks⟩
    · rw [if_pos stays, if_neg stays]
      obtain ⟨h₁, swapped, elems, moves⟩ := swap_spec tracks inside low
      obtain ⟨h₂, sunk, elems', moves'⟩ := ih moves.tracks
        (show b < h₁.elems.length by rw [moves.length]; exact inside)
      refine ⟨h₂, ?_, ?_, moves.trans moves'⟩
      · rw [swapped]
        exact sunk
      · rw [elems', elems]

/-- Neither child of `p` goes before it. -/
def OrderedAt (s : Side) (l : List Elem) (p : Nat) : Prop :=
  ∀ c, Child p c → ∀ x y, l[p]? = some x → l[c]? = some y → s.before y.priority x.priority = false

theorem orderedAt_iff (ranks : s.Ranks rank) {l : List Elem} {p : Nat} :
    s.OrderedAt l p ↔ Theory.OrderedAt (fun e : Elem => rank e.priority) l p := by
  have each : ∀ x y : Elem, s.before y.priority x.priority = false ↔
      rank x.priority ≤ rank y.priority := fun x y => by
    rw [← Bool.not_eq_true, ranks, not_lt]
  simp only [OrderedAt, Theory.OrderedAt, each]

end Side

/-- **Heapify.** It comes to an end, moves nothing outside the subtree and restores the order in it; the
entries of the key map that change are those of the elements that moved. -/
theorem heapify_restores {s : Side} (side : s = minSide ∨ ∃ k, s = maxSide k) {h : Heap}
    (tracks : Tracks s h) {idx : Nat} (low : idx < h.elems.length)
    (below : ∀ p, Under idx p → p ≠ idx → s.OrderedAt h.elems p) :
    ∃ h', (∀ fuel, h.elems.length ≤ fuel + idx → s.heapify fuel h idx = some h') ∧
      h'.elems.Perm h.elems ∧ (∀ m, ¬ Under idx m → h'.elems[m]? = h.elems[m]?) ∧
      (∀ p, Under idx p → s.OrderedAt h'.elems p) ∧ Tracks s h' ∧
      ∀ key, h'.keymap key ≠ h.keymap key ↔
        ∃ (e : Elem) (i j : Nat), e.key = key ∧ h.elems[i]? = some e ∧ h'.elems[j]? = some e ∧ i ≠ j := by
  obtain ⟨rank, ranks⟩ : ∃ rank, s.Ranks rank := by
    obtain rfl | ⟨k, rfl⟩ := side
    · exact ⟨_, Side.ranks_min⟩
    · exact ⟨_, Side.ranks_max k⟩
  have enough : h.elems.length ≤ h.elems.length - idx + idx := by omega
  obtain ⟨h', sunk, elems, moves⟩ := Side.heapify_spec ranks (h.elems.length - idx) tracks low
  refine ⟨h', fun fuel more => ?_, moves.perm, fun m outside => ?_, fun p under => ?_, moves.tracks,
    moves.keymap_ne_iff tracks⟩
  · obtain ⟨h₁, sunk', elems', moves'⟩ := Side.heapify_spec ranks fuel tracks low
    rw [sunk', moves'.eq_of_elems moves]
    rw [elems', elems, show fuel = h.elems.length - idx + (fuel - (h.elems.length - idx)) by omega,
      heapify_add enough]
  · rw [elems, getElem?_heapify_of_not_under _ _ outside]
  · rw [Side.orderedAt_iff ranks, elems]
    exact heapify_ordered enough (fun q inside proper =>
      (Side.orderedAt_iff ranks).mp (below q inside proper)) p under

/-- A root of low priority in a max-heap of three. -/
theorem heapify_restores_three : ∃ h' : Heap,
    (maxSide 2).heapify 3 ⟨[⟨7, 1⟩, ⟨8, 4⟩, ⟨9, 6⟩], fun key => some (key - 5)⟩ 0 = some h' ∧
      (maxSide 2).OrderedAt h'.elems 0 := by
  have tracks : Tracks (maxSide 2) ⟨[⟨7, 1⟩, ⟨8, 4⟩, ⟨9, 6⟩], fun key => some (key - 5)⟩ := by
    intro i e at_
    rcases i with _ | _ | _ | i <;> cases at_ <;> rfl
  obtain ⟨h', sunk, -, -, ordered, -⟩ := heapify_restores (.inr ⟨2, rfl⟩) tracks
    (show 0 < 3 by decide) (fun p _ proper c child x y _ at' => by
      have := (List.getElem?_eq_some_iff.mp at').1
      rcases child with rfl | rfl <;> simp only [List.length_cons, List.length_nil] at this <;> omega)
  exact ⟨h', sunk 3 (Nat.le_refl 3), ordered 0 .refl⟩

end Cyclone.Pmemds
