/-
# Pmemds.Returns — which calls on the queue throw

A call throws where `at` is past the end of a vector.  The sifting loops never are, when they start
inside: so a call returns exactly when the place it reads from the key map is inside its heap and, if
the element has to climb, there is a root to compare with (`increasePrio_isSome_iff`,
`decreasePrio_isSome_iff`).

The map's places are always inside, but `decrease_prio` reads the root of the max-heap although there is
none before more than `k` keys are in: `updates_return_iff`.
-/
import Cyclone.Pmemds.KeyMap

namespace Cyclone.Pmemds

open Cyclone.Theory

set_option autoImplicit false

/-! ## The loops -/

/-- Every place the map has is in `P`. -/
def Within (P : Nat → Prop) (m : KeyMap) : Prop := ∀ key idx, m key = some idx → P idx

theorem within_true (m : KeyMap) : Within (fun _ => True) m := fun _ _ _ => trivial

variable {P : Nat → Prop} {h : Heap} {s : Side} {idx : Nat}

theorem Within.update {m : KeyMap} (within : Within P m) (key : Nat) {place : Nat} (inside : P place) :
    Within P (Function.update m key (some place)) := by
  intro key' idx found
  obtain old | rfl := place_update found
  · exact within key' idx old
  · exact inside

/-- The heap's own places are in `P`, and so are those the map has. -/
structure Heap.Inside (P : Nat → Prop) (s : Side) (h : Heap) : Prop where
  places : ∀ j < h.elems.length, P (s.base + j)
  map : Within P h.keymap

theorem Heap.inside_true (s : Side) (h : Heap) : h.Inside (fun _ => True) s :=
  ⟨fun _ _ => trivial, within_true _⟩

/-- The call returns, with as many elements and the map's places in `P`. -/
def Heap.Lands (P : Nat → Prop) (h : Heap) (called : Option Heap) : Prop :=
  ∃ h', called = some h' ∧ h'.elems.length = h.elems.length ∧ Within P h'.keymap

theorem Heap.Inside.of_length {h' : Heap} (inside : h.Inside P s)
    (length : h'.elems.length = h.elems.length) (map : Within P h'.keymap) : h'.Inside P s :=
  ⟨fun j low => inside.places j (length ▸ low), map⟩

/-- What an exchange keeps is all that is asked of a loop that returns. -/
theorem Heap.Inside.lands {h' : Heap} {called : Option Heap} (inside : h.Inside P s)
    (returned : called = some h') (moved : Relocated s h h') : h.Lands P called := by
  refine ⟨h', returned, moved.perm.length_eq, fun key idx found => ?_⟩
  obtain old | ⟨j, low, rfl⟩ := moved.places key idx found
  · exact inside.map key idx old
  · exact inside.places j low

namespace Side

theorem swap_returns {i j : Nat} (s : Side) (low : i < h.elems.length) (low' : j < h.elems.length) :
    ∃ h', s.swap h i j = some h' ∧ h'.elems.length = h.elems.length := by
  have returned : (s.swap h i j).isSome = true := by
    simp only [swap, List.getElem?_eq_getElem low, List.getElem?_eq_getElem low', Option.bind_eq_bind,
      Option.bind_some]
    split
    · rfl
    · split <;> rfl
  obtain ⟨h', swapped⟩ := Option.isSome_iff_exists.mp returned
  exact ⟨h', swapped, (swap_relocates swapped).perm.length_eq⟩

theorem siftUp_returns (s : Side) (fuel : Nat) (low : idx < h.elems.length) :
    ∃ h', s.siftUp fuel h idx = some h' := by
  induction fuel generalizing h idx with
  | zero => exact ⟨h, rfl⟩
  | succ fuel ih =>
    have above : parentOf idx < h.elems.length := Nat.lt_of_le_of_lt (Nat.div_le_self _ _) low
    rw [siftUp]
    split
    · exact ⟨h, rfl⟩
    · simp only [List.getElem?_eq_getElem low, List.getElem?_eq_getElem above, Option.bind_eq_bind,
        Option.bind_some]
      split
      · obtain ⟨h₁, swapped, length⟩ := swap_returns s low above
        rw [swapped]
        exact ih (length ▸ above)
      · exact ⟨h, rfl⟩

theorem siftUp_lands (fuel : Nat) (inside : h.Inside P s) (low : idx < h.elems.length) :
    h.Lands P (s.siftUp fuel h idx) := by
  obtain ⟨h', sifted⟩ := siftUp_returns s fuel low
  exact inside.lands sifted (siftUp_relocates sifted)

theorem choose_lt (s : Side) (child : Nat) (low : idx < h.elems.length) :
    ∃ best, s.choose h child idx = some best ∧ best < h.elems.length := by
  unfold choose
  split
  · rename_i inside
    simp only [List.getElem?_eq_getElem low, List.getElem?_eq_getElem inside, Option.bind_eq_bind,
      Option.bind_some]
    refine ⟨_, rfl, ?_⟩
    split
    · exact inside
    · exact low
  · exact ⟨idx, rfl, low⟩

theorem heapify_returns (s : Side) (fuel : Nat) (low : idx < h.elems.length) :
    ∃ h', s.heapify fuel h idx = some h' := by
  induction fuel generalizing h idx with
  | zero => exact ⟨h, rfl⟩
  | succ fuel ih =>
    obtain ⟨right, chosen, low₁⟩ := choose_lt s (rightChild idx) low
    obtain ⟨best, chosen', low₂⟩ := choose_lt s (leftChild idx) low₁
    simp only [heapify, chosen, chosen', Option.bind_eq_bind, Option.bind_some]
    split
    · obtain ⟨h₁, swapped, length⟩ := swap_returns s low₂ low
      rw [swapped]
      exact ih (length ▸ low₂)
    · exact ⟨h, rfl⟩

theorem heapify_lands (fuel : Nat) (inside : h.Inside P s) (low : idx < h.elems.length) :
    h.Lands P (s.heapify fuel h idx) := by
  obtain ⟨h', sunk⟩ := heapify_returns s fuel low
  exact inside.lands sunk (heapify_relocates sunk)

end Side

/-! ## Updates -/

section Updates

variable {home away : Side} {w : Halves} {undoLog : Bool} {new : Nat → Nat}

/-- An element is replaced. -/
theorem Heap.Inside.set (inside : h.Inside P s) (idx : Nat) (e : Elem) {m : KeyMap} (map : Within P m) :
    Heap.Inside P s ⟨h.elems.set idx e, m⟩ :=
  inside.of_length List.length_set map

theorem sink_lands (new : Nat → Nat) (inside : h.Inside P home) (low : idx < h.elems.length) :
    h.Lands P (sink home new h idx) := by
  obtain ⟨e, at_⟩ : ∃ e, h.elems[idx]? = some e := ⟨_, List.getElem?_eq_getElem low⟩
  obtain ⟨h', sunk, length, map⟩ := Side.heapify_lands h.elems.length
    (inside.set idx ⟨e.key, new e.priority⟩ inside.map) (List.length_set.symm ▸ low)
  exact ⟨h', Option.bind_eq_some_iff.mpr ⟨e, at_, sunk⟩, length.trans List.length_set, map⟩

theorem sink_isSome_iff : (sink home new h idx).isSome = true ↔ idx < h.elems.length := by
  constructor
  · intro returned
    obtain ⟨h', sunk⟩ := Option.isSome_iff_exists.mp returned
    obtain ⟨e, at_, -⟩ := Option.bind_eq_some_iff.mp sunk
    exact (List.getElem?_eq_some_iff.mp at_).1
  · intro low
    obtain ⟨h', sunk, -⟩ := sink_lands new (Heap.inside_true home h) low
    exact Option.isSome_of_eq_some sunk

/-- The update returns, with heaps of the same size and the map's places in `P`. -/
def Halves.Lands (P : Nat → Prop) (w : Halves) (called : Option (Halves × Int)) : Prop :=
  ∃ w' ret, called = some (w', ret) ∧ w'.home.length = w.home.length ∧
    w'.away.length = w.away.length ∧ Within P w'.keymap

theorem climb_lands (undoLog : Bool) (new : Nat → Nat) (atHome : Heap.Inside P home ⟨w.home, w.keymap⟩)
    (inside : Heap.Inside P away ⟨w.away, w.keymap⟩) (low : idx < w.away.length) (root : w.home ≠ []) :
    w.Lands P (climb undoLog home away new w idx) := by
  obtain ⟨e, at_⟩ : ∃ e, w.away[idx]? = some e := ⟨_, List.getElem?_eq_getElem low⟩
  obtain ⟨a, sifted, length, map⟩ := Side.siftUp_lands idx
    (inside.set idx ⟨e.key, new e.priority⟩ inside.map)
    (show idx < (w.away.set idx _).length from List.length_set.symm ▸ low)
  rw [List.length_set] at length
  have size : 0 < w.home.length := List.length_pos_of_ne_nil root
  have size' : 0 < a.elems.length := by
    rw [length]
    exact Nat.lt_of_le_of_lt (Nat.zero_le idx) low
  simp only [climb, at_, sifted, List.getElem?_eq_getElem size, List.getElem?_eq_getElem size',
    Option.bind_eq_bind, Option.bind_some]
  generalize w.home[0] = top
  generalize a.elems[0] = temp
  have sizes : ∀ l : List Elem, l.length = w.away.length →
      (if undoLog = true then w.away.set idx ⟨e.key, new e.priority⟩ else l).length =
        w.away.length := by
    intro l same
    split
    · exact List.length_set
    · exact same
  have written : Within P (Function.update a.keymap top.key (some away.base)) :=
    map.update top.key (inside.places 0 (length ▸ size'))
  split
  · split
    · exact ⟨_, _, rfl, rfl, sizes _ (List.length_set.trans length), map⟩
    · split
      · refine ⟨_, _, rfl, ?_, sizes _ (List.length_set.trans length), written⟩
        split
        · rfl
        · exact List.length_set
      · have placed : Within P (Function.update (Function.update a.keymap top.key (some away.base))
            temp.key (some home.base)) := written.update temp.key (atHome.places 0 size)
        obtain ⟨h', sunk, length', map'⟩ := Side.heapify_lands w.home.length (atHome.set 0 temp placed)
          (show 0 < (w.home.set 0 temp).length from List.length_set.symm ▸ size)
        rw [sunk]
        exact ⟨_, _, rfl, length'.trans List.length_set, List.length_set.trans length, map'⟩
  · exact ⟨_, _, rfl, rfl, sizes _ length, map⟩

theorem climb_isSome_iff : (climb undoLog home away new w idx).isSome = true ↔
    idx < w.away.length ∧ w.home ≠ [] := by
  constructor
  · intro returned
    obtain ⟨r, climbed⟩ := Option.isSome_iff_exists.mp returned
    obtain ⟨e, at_, -⟩ := Option.bind_eq_some_iff.mp climbed
    refine ⟨(List.getElem?_eq_some_iff.mp at_).1, fun none_ => ?_⟩
    rw [Twin.climb_nil at_ none_] at climbed
    cases climbed
  · rintro ⟨low, root⟩
    obtain ⟨w', ret, climbed, -⟩ := climb_lands undoLog new (Heap.inside_true home _)
      (Heap.inside_true away _) low root
    exact Option.isSome_of_eq_some climbed

/-- An update changes no size, and its new places are the heaps'. -/
theorem Halves.Updates.stays {w' : Halves} (updated : w.Updates undoLog home away new w')
    (atHome : Heap.Inside P home ⟨w.home, w.keymap⟩) (inside : Heap.Inside P away ⟨w.away, w.keymap⟩) :
    w'.home.length = w.home.length ∧ w'.away.length = w.away.length ∧ Within P w'.keymap := by
  cases updated with
  | absent => exact ⟨rfl, rfl, inside.map⟩
  | sank sunk =>
    have low := sink_isSome_iff.mp (Option.isSome_of_eq_some sunk)
    obtain ⟨h, sunk', length, map⟩ := sink_lands new atHome low
    cases sunk.symm.trans sunk'
    exact ⟨length, rfl, map⟩
  | climbed climbed =>
    obtain ⟨low, root⟩ := climb_isSome_iff.mp (Option.isSome_of_eq_some climbed)
    obtain ⟨w₁, ret, climbed', stays⟩ := climb_lands undoLog new atHome inside low root
    cases climbed.symm.trans climbed'
    exact stays

end Updates

/-! ## The queue -/

/-- The places of heaps of `n` and `m` elements. -/
def Place (k n m idx : Nat) : Prop := idx < n ∨ k ≤ idx ∧ idx < k + m

/-- The map's places are inside the heaps, and the max-heap is used when the min-heap is full. -/
structure Queue.Ranged (k : Nat) (q : Queue) : Prop where
  map : Within (Place k q.min.length q.max.length) q.keymap
  fits : q.min.length ≤ k
  full : q.max ≠ [] → q.min ≠ [] ∧ q.min.length = k

namespace Queue

variable {undoLog : Bool} {k : Nat} {q q' : Queue} {key delta priority : Nat} {ret : Int}

theorem isSome_bind {A B : Type} {f : A → Option B} (returns : ∀ a, (f a).isSome = true) (x : Option A) :
    (x.bind f).isSome = x.isSome := by
  cases x with
  | none => rfl
  | some a => exact returns a

theorem increasePrio_isSome_iff : (q.increasePrio undoLog k key delta).isSome = true ↔
    ∀ idx, q.keymap key = some idx →
      if idx < k then idx < q.min.length else idx - k < q.max.length ∧ q.min ≠ [] := by
  unfold increasePrio
  cases q.keymap key with
  | none => simp
  | some idx =>
    simp only [Option.some_inj, forall_eq']
    split
    · rw [← sink_isSome_iff (h := ⟨q.min, q.keymap⟩)]
      exact Bool.coe_iff_coe.mpr (isSome_bind (fun _ => rfl) _)
    · rw [← climb_isSome_iff (w := q.halves)]
      exact Bool.coe_iff_coe.mpr (isSome_bind (fun _ => rfl) _)

theorem decreasePrio_isSome_iff : (q.decreasePrio undoLog k key delta).isSome = true ↔
    ∀ idx, q.keymap key = some idx →
      if idx < k then idx < q.min.length ∧ q.max ≠ [] else idx - k < q.max.length := by
  unfold decreasePrio
  cases q.keymap key with
  | none => simp
  | some idx =>
    simp only [Option.some_inj, forall_eq']
    split
    · rw [← climb_isSome_iff (w := q.flipped)]
      exact Bool.coe_iff_coe.mpr (isSome_bind (fun _ => rfl) _)
    · rw [← sink_isSome_iff (h := ⟨q.max, q.keymap⟩)]
      exact Bool.coe_iff_coe.mpr (isSome_bind (fun _ => rfl) _)

variable {P : Nat → Prop}

/-- An element is added at the end of a heap and rises. -/
theorem push_lands {s : Side} {l : List Elem} {m : KeyMap} (e : Elem)
    (places : ∀ j < l.length + 1, P (s.base + j)) (map : Within P m) :
    ∃ h, s.siftUp l.length ⟨l ++ [e], m⟩ l.length = some h ∧ h.elems.length = l.length + 1 ∧
      Within P h.keymap := by
  have length : (l ++ [e]).length = l.length + 1 := List.length_append
  obtain ⟨h, sifted, length', map'⟩ := Side.siftUp_lands (h := ⟨l ++ [e], m⟩) l.length
    ⟨fun j low => places j (length ▸ low), map⟩ (show l.length < (l ++ [e]).length by omega)
  exact ⟨h, sifted, length'.trans length, map'⟩

/-- An insertion into a min-heap with room. -/
theorem insert_room (undoLog : Bool) (key priority : Nat) (room : q.min.length < k)
    (mins : ∀ j < q.min.length + 1, P j) (map : Within P q.keymap) :
    ∃ q', q.insert undoLog k key priority = some (q', 0) ∧
      q'.min.length = q.min.length + 1 ∧ q'.max = q.max ∧ Within P q'.keymap := by
  obtain ⟨h, sifted, length, map'⟩ := push_lands (s := minSide) (l := q.min) ⟨key, priority⟩
    (fun j low => (Nat.zero_add j).symm ▸ mins j low)
    (map.update key (mins q.min.length (Nat.lt_succ_self _)))
  exact ⟨⟨h.elems, q.max, h.keymap⟩, by simp [insert, room, sifted], length, rfl, map'⟩

/-- An insertion into a min-heap without room but with a root: the queue is rolled back, or one of the two
elements is added to the max-heap. -/
theorem insert_full (undoLog : Bool) (key priority : Nat) (full : ¬ q.min.length < k) (root : q.min ≠ [])
    (mins : ∀ j < q.min.length, P j) (maxs : ∀ j < q.max.length + 1, P (k + j))
    (reused : P q.max.length) (map : Within P q.keymap) :
    ∃ q' ret, q.insert undoLog k key priority = some (q', ret) ∧ (q' = q ∨
      q'.min.length = q.min.length ∧ q'.max.length = q.max.length + 1 ∧ Within P q'.keymap) := by
  have size : 0 < q.min.length := List.length_pos_of_ne_nil root
  have last : P (k + q.max.length) := maxs q.max.length (Nat.lt_succ_self _)
  simp only [insert, if_neg full, List.getElem?_eq_getElem size, Option.bind_eq_bind, Option.bind_some]
  generalize q.min[0] = minimum
  split
  · have place : P (if (q.keymap key).isNone then k + q.max.length else q.max.length) := by
      split
      · exact last
      · exact reused
    obtain ⟨h, sifted, length, map'⟩ := push_lands (s := maxSide k) ⟨key, priority⟩ maxs
      (map.update key place)
    rw [sifted]
    exact ⟨_, _, rfl, .inr ⟨rfl, length, map'⟩⟩
  · split
    · refine ⟨_, _, rfl, ?_⟩
      cases undoLog with
      | true => exact .inl rfl
      | false => exact .inr ⟨rfl, List.length_append, map⟩
    · obtain ⟨h, sifted, length, map'⟩ := push_lands (s := maxSide k) minimum maxs
        (map.update minimum.key last)
      have inside : Heap.Inside P minSide ⟨q.min, q.keymap⟩ :=
        ⟨fun j low => (Nat.zero_add j).symm ▸ mins j low, map⟩
      obtain ⟨h', sunk, length', map''⟩ := Side.heapify_lands q.min.length
        (inside.set 0 ⟨key, priority⟩ (map'.update key (mins 0 size)))
        (show 0 < (q.min.set 0 _).length from List.length_set.symm ▸ size)
      simp only [sifted, sunk, Option.bind_some]
      exact ⟨_, _, rfl, .inr ⟨length'.trans List.length_set, length, map''⟩⟩

/-- An insertion throws when the min-heap has neither room nor a root. -/
theorem insert_isSome_iff : (q.insert undoLog k key priority).isSome = true ↔
    q.min.length < k ∨ q.min ≠ [] := by
  by_cases room : q.min.length < k
  · obtain ⟨q', inserted, -⟩ := insert_room (P := fun _ => True) undoLog key priority room
      (fun _ _ => trivial) (within_true _)
    exact iff_of_true (Option.isSome_of_eq_some inserted) (.inl room)
  · by_cases root : q.min = []
    · refine iff_of_false ?_ (fun either => either.elim room (absurd root))
      rw [insert, if_neg room]
      simp [root]
    · obtain ⟨q', ret, inserted, -⟩ := insert_full (P := fun _ => True) undoLog key priority room root
        (fun _ _ => trivial) (fun _ _ => trivial) trivial (within_true _)
      exact iff_of_true (Option.isSome_of_eq_some inserted) (.inr root)

namespace Ranged

theorem empty (k : Nat) : Queue.empty.Ranged k where
  map := fun _ _ found => absurd found (Option.some_ne_none _).symm
  fits := Nat.zero_le k
  full := fun some_ => absurd rfl some_

theorem insert (ranged : q.Ranged k) (called : q.insert undoLog k key priority = some (q', ret)) :
    q'.Ranged k := by
  have fits := ranged.fits
  by_cases room : q.min.length < k
  · obtain ⟨q₁, inserted, min, max, map⟩ := insert_room (P := Place k (q.min.length + 1) q.max.length)
      undoLog key priority room (fun _ low => .inl low) fun key idx found =>
        (ranged.map key idx found).imp_left Nat.lt_succ_of_lt
    cases inserted.symm.trans called
    refine ⟨by rwa [min, max], by omega, fun some_ => ?_⟩
    have := (ranged.full (max ▸ some_)).2
    omega
  · have root : q.min ≠ [] :=
      (insert_isSome_iff.mp (Option.isSome_of_eq_some called)).resolve_left room
    obtain ⟨q₁, ret₁, inserted, rfl | ⟨min, max, map⟩⟩ := insert_full
      (P := Place k q.min.length (q.max.length + 1)) undoLog key priority room root
      (fun _ low => .inl low) (fun j low => .inr ⟨Nat.le_add_right k j, Nat.add_lt_add_left low k⟩)
      (by unfold Place; omega) fun key idx found =>
        (ranged.map key idx found).imp_right fun far => ⟨far.1, Nat.lt_succ_of_lt far.2⟩
    · cases inserted.symm.trans called
      exact ranged
    · cases inserted.symm.trans called
      refine ⟨by rwa [min, max], by omega, fun _ => ⟨fun none_ => root ?_, by omega⟩⟩
      rw [none_, List.length_nil] at min
      exact List.eq_nil_of_length_eq_zero min.symm

/-- An update changes no size. -/
theorem of_lengths (ranged : q.Ranged k) (min : q'.min.length = q.min.length)
    (max : q'.max.length = q.max.length)
    (map : Within (Place k q.min.length q.max.length) q'.keymap) : q'.Ranged k := by
  have nil_iff : ∀ {l l' : List Elem}, l.length = l'.length → (l ≠ [] ↔ l' ≠ []) := by
    intro l l' same
    rw [← List.length_pos_iff, ← List.length_pos_iff, same]
  refine ⟨by rwa [min, max], by rw [min]; exact ranged.fits, ?_⟩
  rw [nil_iff min, nil_iff max, min]
  exact ranged.full

theorem call (ranged : q.Ranged k) {op : QueueOp} (called : q.call undoLog k op = some (q', ret)) :
    q'.Ranged k := by
  have mins : Heap.Inside (Place k q.min.length q.max.length) minSide ⟨q.min, q.keymap⟩ :=
    ⟨fun j low => .inl ((Nat.zero_add j).symm ▸ low), ranged.map⟩
  have maxs : Heap.Inside (Place k q.min.length q.max.length) (maxSide k) ⟨q.max, q.keymap⟩ :=
    ⟨fun j low => .inr ⟨Nat.le_add_right k j, Nat.add_lt_add_left low k⟩, ranged.map⟩
  cases op with
  | insert key priority => exact ranged.insert called
  | increase key delta =>
    obtain ⟨min, max, map⟩ := (increase_updates called).stays mins maxs
    exact ranged.of_lengths min max map
  | decrease key delta =>
    obtain ⟨max, min, map⟩ := (decrease_updates called).stays maxs mins
    exact ranged.of_lengths min max map

end Ranged

end Queue

/-- **Updates of present keys.** An increase returns, and a decrease does exactly when more than `k` keys have
been inserted. -/
theorem updates_return_iff {undoLog : Bool} {k : Nat} {w : Count} {key : Nat}
    (run : Path (Count.step undoLog k) (fun w op => op.fresh w.tally = true) .empty w)
    (present : key ∈ w.tally.map Elem.key) (delta : Nat) :
    (w.queue.increasePrio undoLog k key delta).isSome = true ∧
      ((w.queue.decreasePrio undoLog k key delta).isSome = true ↔ k < w.tally.length) := by
  obtain ⟨ranged, known, keys⟩ : w.queue.Ranged k ∧ w.queue.halves.Known ∧
      ((w.queue.min ++ w.queue.max).map Elem.key).Perm (w.tally.map Elem.key) := by
    refine run.keeps (I := fun w : Count => w.queue.Ranged k ∧ w.queue.halves.Known ∧
      ((w.queue.min ++ w.queue.max).map Elem.key).Perm (w.tally.map Elem.key))
      ⟨.empty k, fun e member => absurd member List.not_mem_nil, .refl _⟩ fun t op u good _ taken => ?_
    obtain ⟨ret, called, tally⟩ := Count.step_call taken
    rw [tally]
    exact ⟨good.1.call called, Queue.call_keys good.2.1 good.2.2 called⟩
  obtain ⟨idx, found⟩ : ∃ idx, w.queue.keymap key = some idx := by
    obtain ⟨e, member, rfl⟩ := List.mem_map.mp (keys.mem_iff.mpr present)
    exact Option.ne_none_iff_exists'.mp (known e member)
  have sizes := keys.length_eq
  simp only [List.length_map, List.length_append] at sizes
  have place := ranged.map key idx found
  have fits := ranged.fits
  rw [Queue.increasePrio_isSome_iff, Queue.decreasePrio_isSome_iff, ← sizes]
  simp only [found, Option.some_inj, forall_eq']
  by_cases empty : w.queue.max = []
  · -- every key is in the min-heap, and a decrease looks for the other root
    simp only [Place, empty, List.length_nil] at place ⊢
    have small : idx < k := by omega
    simp only [if_pos small, ne_eq, not_true_eq_false, and_false, false_iff]
    omega
  · obtain ⟨root, size⟩ := ranged.full empty
    have used : 0 < w.queue.max.length := List.length_pos_of_ne_nil empty
    refine ⟨?_, iff_of_true ?_ (by omega)⟩
    · split
      · exact place.elim id fun far => absurd far.1 (by omega)
      · exact ⟨by unfold Place at place; omega, root⟩
    · split
      · exact ⟨place.elim id fun far => absurd far.1 (by omega), empty⟩
      · unfold Place at place
        omega

/-- One place, and two keys. -/
theorem updates_return_two : ∃ w : Count, w.tally = [⟨1, 5⟩, ⟨2, 3⟩] ∧
    (w.queue.decreasePrio true 1 1 4).isSome = true := by
  have ran : ∃ w ∈ exec (Count.step true 1) (fun w op => op.fresh w.tally = true) .empty
      [.insert 1 5, .insert 2 3], w.tally = [⟨1, 5⟩, ⟨2, 3⟩] := by
    decide
  obtain ⟨w, run, tally⟩ := Path.exists_of_exec ran
  refine ⟨w, tally, (updates_return_iff run ?_ 4).2.mpr ?_⟩ <;> rw [tally] <;> decide

/-- The first of two places is taken, and a decrease throws. -/
theorem decrease_throws : ∃ w : Count,
    Path (Count.step true 2) (fun w op => op.fresh w.tally = true) .empty w ∧
    1 ∈ w.tally.map Elem.key ∧ w.queue.decreasePrio true 2 1 1 = none := by
  have ran : ∃ w ∈ exec (Count.step true 2) (fun w op => op.fresh w.tally = true) .empty
      [.insert 1 5], 1 ∈ w.tally.map Elem.key ∧
        (w.queue.decreasePrio true 2 1 1).isNone = true := by
    decide
  obtain ⟨w, run, present, thrown⟩ := Path.exists_of_exec ran
  exact ⟨w, run, present, Option.isNone_iff_eq_none.mp thrown⟩

end Cyclone.Pmemds
