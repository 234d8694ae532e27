/-
# Pmemds.BTree.Leaf — `leaf_node_t` of `persistent_b_tree.h`

A leaf keeps its entries in slots, in no order.  Which slots are in use, and in which order of keys, is
in one of two index arrays; `consistent_id` says which.  A change writes the other array and then
switches.

An array is written only as far as it is used, so what stands behind its size is left from earlier
times.  `insert` takes its slot from there.  It is free, because the arrays are used in turn and their
sizes differ by one each time: the cells from the size on, taken from the two arrays by turns, are the
slots that are not in use.  `Leaf.Sound` is that invariant.

Calls of `insert` and `erase` may come in any order, from a leaf as its constructors make it; one that
fails an assertion ends the run.  Whatever the calls, no slot is in use twice, the slot that `insert`
would take is free, and the entries of other keys stay (`leaf_slots`).  `slots` is
`number_entrys_slots`, one less than the degree.
-/
import Cyclone.Theory.Run
import Cyclone.Theory.Slots

namespace Cyclone.Pmemds.BTree

open Cyclone.Theory

set_option autoImplicit false

variable {K V : Type}

/-- Where a persistent pointer leads. -/
abbrev Addr := Nat

/-! ## Leaves -/

/-- `leaf_entries_t`. -/
structure LeafEntries where
  idxs : Nat → Nat
  size : Nat

/-- The slots in use. -/
def LeafEntries.live (x : LeafEntries) : List Nat := firstN x.idxs x.size

/-- `leaf_node_t`. -/
structure Leaf (K V : Type) where
  epoch : Nat
  consistentId : Bool
  prev : Option Addr
  next : Option Addr
  entries : Nat → K × V
  v : Bool → LeafEntries
  pConsistentId : Bool

namespace Leaf

section Build

variable [Inhabited K] [Inhabited V]

/-- The constructor of an empty leaf. -/
def new (e : Nat) : Leaf K V where
  epoch := e
  consistentId := false
  prev := none
  next := none
  entries := fun _ => default
  v := fun _ => ⟨id, 0⟩
  pConsistentId := false

/-- `copy`, and the constructor around it. -/
def copy (e : Nat) (l : List (K × V)) (prev next : Option Addr) : Leaf K V :=
  { (new e : Leaf K V) with
    prev := prev
    next := next
    entries := overlay l fun _ => default
    v := Function.update (fun _ => ⟨id, 0⟩) false ⟨overlay (List.range l.length) id, l.length⟩ }

end Build

def consistent (l : Leaf K V) : LeafEntries := l.v l.consistentId

def workingId (l : Leaf K V) : Bool := !l.consistentId

def size (l : Leaf K V) : Nat := l.consistent.size

def full (slots : Nat) (l : Leaf K V) : Prop := l.size = slots

instance (slots : Nat) (l : Leaf K V) : Decidable (l.full slots) := inferInstanceAs (Decidable (_ = _))

/-- `operator[]`. -/
def get (l : Leaf K V) (pos : Nat) : K × V := l.entries (l.consistent.idxs pos)

/-- The range from `begin()` to `end()`. -/
def toList (l : Leaf K V) : List (K × V) := firstN l.get l.size

section Search

variable [LinearOrder K]

/-- `find`: the position, or the size when the key is not there. -/
def find (l : Leaf K V) (key : K) : Nat :=
  let it := lowerBound Prod.fst key l.toList
  if it = l.size ∨ (l.get it).1 = key then it else l.size

end Search

/-- `get_insert_idx`. -/
def getInsertIdx (l : Leaf K V) : Nat := l.consistent.idxs l.size

/-- The working copy gets these indexes and a size. -/
def setWorking (l : Leaf K V) (xs : List Nat) (n : Nat) : Leaf K V :=
  { l with v := Function.update l.v l.workingId ⟨overlay xs (l.v l.workingId).idxs, n⟩ }

/-- `insert_idx`. -/
def insertIdx (l : Leaf K V) (newEntryIdx hint : Nat) : Leaf K V :=
  l.setWorking (l.consistent.live.take hint ++ [newEntryIdx] ++ l.consistent.live.drop hint) (l.size + 1)

/-- `remove_idx`: the slot that is given up stands behind those that stay. -/
def removeIdx (l : Leaf K V) (it : Nat) : Leaf K V :=
  l.setWorking (l.consistent.live.take it ++ l.consistent.live.drop (it + 1) ++ [l.consistent.idxs it])
    (l.size - 1)

/-- `switch_consistent`. -/
def switchConsistent (l : Leaf K V) : Leaf K V :=
  { l with consistentId := l.workingId, pConsistentId := l.workingId }

/-- The change that `insert` makes for an entry that goes to position `hint`. -/
def inserted (l : Leaf K V) (hint : Nat) (e : K × V) : Leaf K V :=
  (insertIdx { l with entries := Function.update l.entries l.getInsertIdx e } l.getInsertIdx
    hint).switchConsistent

/-- `internal_erase`, up to its assertion. -/
def erased (l : Leaf K V) (it : Nat) : Leaf K V := (l.removeIdx it).switchConsistent

section Calls

variable [LinearOrder K] [DecidableEq V]

/-- `insert`: the position, and whether the entry was inserted.  Nothing results where an assertion
fails. -/
def insert (slots : Nat) (entry : K × V) (l : Leaf K V) : Option (Leaf K V × Nat × Bool) :=
  if l.full slots then none
  else
    let hint := lowerBound Prod.fst entry.1 l.toList
    if hint ≠ l.size ∧ (l.get hint).1 = entry.1 then some (l, hint, false)
    else if l.getInsertIdx ∈ l.consistent.live then none
    else if IsSorted Prod.fst (l.inserted hint entry).toList then some (l.inserted hint entry, hint, true)
    else none

/-- `erase`: how many entries were removed. -/
def erase (key : K) (l : Leaf K V) : Option (Leaf K V × Nat) :=
  if IsSorted Prod.fst l.toList then
    let it := l.find key
    if it = l.size then some (l, 0)
    else if IsSorted Prod.fst (l.erased it).toList then some (l.erased it, 1)
    else none
  else none

end Calls

/-! ## The slots -/

/-- All slots: those in use, and those an `insert` would take one after the other. -/
def allSlots (slots : Nat) (l : Leaf K V) : List Nat :=
  l.consistent.live ++ alternate l.consistent.idxs (l.v l.workingId).idxs l.size (slots - l.size)

/-- No more entries than slots, and no slot twice. -/
structure Sound (slots : Nat) (l : Leaf K V) : Prop where
  fits : l.size ≤ slots
  distinct : (l.allSlots slots).Perm (List.range slots)

variable {slots : Nat} {l : Leaf K V}

theorem toList_eq : l.toList = l.consistent.live.map l.entries := by
  rw [LeafEntries.live, map_firstN]
  rfl

variable {pos : Nat}

theorem getElem?_toList (inside : pos < l.size) : l.toList[pos]? = some (l.get pos) :=
  getElem?_firstN _ inside

/-- The slot that `get_insert_idx` returns is not in use. -/
theorem Sound.getInsertIdx_not_mem (sound : l.Sound slots) (room : ¬ l.full slots) :
    l.getInsertIdx ∉ l.consistent.live := by
  have some : slots - l.size = (slots - l.size - 1) + 1 := by
    have := sound.fits
    have : l.size ≠ slots := room
    omega
  have nodup : (l.allSlots slots).Nodup := sound.distinct.nodup_iff.mpr List.nodup_range
  rw [allSlots, some, alternate] at nodup
  intro used
  exact (List.nodup_append.mp nodup).2.2 _ used _ List.mem_cons_self rfl

/-! ## What the changes do -/

section Changes

variable {hint it n : Nat} {e : K × V} {xs : List Nat}

theorem consistent_switched :
    (l.setWorking xs n).switchConsistent.consistent = ⟨overlay xs (l.v l.workingId).idxs, n⟩ := by
  simp [consistent, setWorking, switchConsistent, workingId]

theorem live_switched (le : n ≤ xs.length) : (l.setWorking xs n).switchConsistent.consistent.live = xs.take n := by
  rw [consistent_switched, LeafEntries.live, firstN_overlay_take le]

theorem size_switched : (l.setWorking xs n).switchConsistent.size = n := by
  rw [size, consistent_switched]

/-- The slots in use, then those that the new consistent copy and the old one give by turns. -/
theorem allSlots_switched (le : n ≤ xs.length) :
    (l.setWorking xs n).switchConsistent.allSlots slots = xs.take n ++
      alternate (overlay xs (l.v l.workingId).idxs) l.consistent.idxs n (slots - n) := by
  have old : (l.setWorking xs n).switchConsistent.v (l.setWorking xs n).switchConsistent.workingId = l.consistent := by
    simp [workingId, setWorking, switchConsistent, consistent]
  rw [allSlots, live_switched le, size_switched, old, consistent_switched]

theorem length_live : l.consistent.live.length = l.size := length_firstN ..

theorem Sound.inserted (sound : l.Sound slots) (room : ¬ l.full slots) (inside : hint ≤ l.size) :
    (l.inserted hint e).Sound slots := by
  have fits := sound.fits
  have more : l.size ≠ slots := room
  let xs := l.consistent.live.take hint ++ [l.getInsertIdx] ++ l.consistent.live.drop hint
  have length : xs.length = l.size + 1 := by
    simp [xs, length_live]
    omega
  have slots_eq : (l.inserted hint e).allSlots slots = (l.setWorking xs (l.size + 1)).switchConsistent.allSlots slots := rfl
  refine ⟨(Nat.le_of_eq (size_switched (n := l.size + 1))).trans (by omega), ?_⟩
  rw [slots_eq, allSlots_switched length.ge, List.take_of_length_le length.le]
  -- the cells behind the new size are as they were
  have rest : alternate (overlay xs (l.v l.workingId).idxs) l.consistent.idxs (l.size + 1)
      (slots - (l.size + 1)) =
        alternate (l.v l.workingId).idxs l.consistent.idxs (l.size + 1) (slots - (l.size + 1)) :=
    alternate_congr (fun j after => overlay_beyond (length.trans_le after)) (fun _ _ => rfl) _
  rw [rest]
  refine List.Perm.trans ?_ sound.distinct
  have step : slots - l.size = slots - (l.size + 1) + 1 := by omega
  rw [allSlots, step, alternate]
  have moved : xs.Perm (l.getInsertIdx :: l.consistent.live) := by
    calc xs.Perm (l.getInsertIdx :: (l.consistent.live.take hint ++ l.consistent.live.drop hint)) := by
          rw [show xs = _ from List.append_cons _ _ _ |>.symm]
          exact List.perm_middle
      _ = l.getInsertIdx :: l.consistent.live := by rw [List.take_append_drop]
  exact (moved.append_right _).trans List.perm_middle.symm

theorem toList_inserted (sound : l.Sound slots) (room : ¬ l.full slots) (inside : hint ≤ l.size) :
    (l.inserted hint e).toList = l.toList.take hint ++ e :: l.toList.drop hint := by
  have fresh := sound.getInsertIdx_not_mem room
  have same : l.consistent.live.map (Function.update l.entries l.getInsertIdx e) = l.toList := by
    rw [toList_eq]
    refine List.map_congr_left fun slot used => Function.update_of_ne ?_ _ _
    rintro rfl
    exact fresh used
  have live : (l.inserted hint e).consistent.live =
      l.consistent.live.take hint ++ l.getInsertIdx :: l.consistent.live.drop hint := by
    have placed : (l.inserted hint e).consistent.live = (l.consistent.live.take hint ++ [l.getInsertIdx] ++
        l.consistent.live.drop hint).take (l.size + 1) := live_switched (by simp [length_live]; omega)
    rw [placed, List.take_of_length_le]
    · simp
    · simp [length_live]
      omega
  have stored : (l.inserted hint e).entries = Function.update l.entries l.getInsertIdx e := rfl
  rw [toList_eq, live, List.map_append, List.map_cons, List.map_take, List.map_drop, stored, same,
    Function.update_self]

theorem Sound.erased (sound : l.Sound slots) (inside : it < l.size) : (l.erased it).Sound slots := by
  have fits := sound.fits
  let stay := l.consistent.live.take it ++ l.consistent.live.drop (it + 1)
  let xs := stay ++ [l.consistent.idxs it]
  have lengthStay : stay.length = l.size - 1 := by
    simp [stay, length_live]
    omega
  have length : xs.length = l.size := by
    simp [xs, lengthStay]
    omega
  have slots_eq : (l.erased it).allSlots slots = (l.setWorking xs (l.size - 1)).switchConsistent.allSlots slots := rfl
  refine ⟨(Nat.le_of_eq (size_switched (n := l.size - 1))).trans (by omega), ?_⟩
  have taken : xs.take (l.size - 1) = stay := by
    rw [← lengthStay]
    simp [xs]
  rw [slots_eq, allSlots_switched (by omega), taken]
  have step : slots - (l.size - 1) = slots - l.size + 1 := by omega
  have first : overlay xs (l.v l.workingId).idxs (l.size - 1) = l.consistent.idxs it := by
    rw [overlay_inside (by omega)]
    simp [xs, lengthStay]
  have rest : alternate l.consistent.idxs (overlay xs (l.v l.workingId).idxs) l.size (slots - l.size) =
      alternate l.consistent.idxs (l.v l.workingId).idxs l.size (slots - l.size) :=
    alternate_congr (fun _ _ => rfl) (fun j after => overlay_beyond (length.trans_le after.le)) _
  rw [step, alternate, first, Nat.sub_add_cancel (by omega), rest]
  refine List.Perm.trans ?_ sound.distinct
  have removed : (l.consistent.idxs it :: stay).Perm l.consistent.live := by
    have split : l.consistent.live = l.consistent.live.take it ++
        l.consistent.idxs it :: l.consistent.live.drop (it + 1) := by
      conv_lhs => rw [← List.take_append_drop it l.consistent.live]
      rw [List.drop_eq_getElem_cons (by rw [length_live]; exact inside)]
      congr
      exact getElem_firstN ..
    conv_rhs => rw [split]
    exact List.perm_middle.symm
  exact List.perm_middle.trans (removed.append_right _)

theorem toList_erased (inside : it < l.size) :
    (l.erased it).toList = l.toList.take it ++ l.toList.drop (it + 1) := by
  have live : (l.erased it).consistent.live =
      l.consistent.live.take it ++ l.consistent.live.drop (it + 1) := by
    have length : (l.consistent.live.take it ++ l.consistent.live.drop (it + 1)).length = l.size - 1 := by
      simp [length_live]
      omega
    refine (live_switched (by simp [length_live]; omega)).trans ?_
    rw [← length]
    exact List.take_left
  rw [toList_eq, live, List.map_append, List.map_take, List.map_drop]
  have same : (l.erased it).entries = l.entries := rfl
  rw [same, toList_eq]

end Changes

section Build

variable [Inhabited K] [Inhabited V]

theorem overlay_range (n : Nat) : overlay (List.range n) id = id := by
  funext i
  by_cases inside : i < n
  · simp [overlay, inside]
  · simp [overlay, inside]

theorem alternate_id (i m : Nat) : alternate id id i m = List.range' i m := by
  induction m generalizing i with
  | zero => rfl
  | succ m ih => rw [alternate, ih, List.range'_succ]; rfl

theorem sound_copy {xs : List (K × V)} (fits : xs.length ≤ slots) (e : Nat) (prev next : Option Addr) :
    (copy e xs prev next).Sound slots := by
  refine ⟨by simpa [size, consistent, copy, new] using fits, ?_⟩
  have all : (copy e xs prev next).allSlots slots =
      List.range' 0 xs.length ++ List.range' xs.length (slots - xs.length) := by
    simp only [allSlots, consistent, copy, new, size, workingId, overlay_range, LeafEntries.live]
    simp [alternate_id, firstN, List.range_eq_range']
  rw [all, List.range_eq_range']
  conv_rhs => rw [show slots = xs.length + (slots - xs.length) by omega]
  rw [← List.range'_append_1 (s := 0)]
  simp

theorem sound_new (e : Nat) : (new e : Leaf K V).Sound slots := by
  refine ⟨Nat.zero_le _, ?_⟩
  simp [allSlots, consistent, new, size, workingId, LeafEntries.live, alternate_id, firstN,
    List.range_eq_range']

end Build

end Leaf

/-! ## Calls -/

variable {l l' : Leaf K V} [LinearOrder K] [DecidableEq V]

set_option linter.unusedSectionVars false

/-- A call on a leaf. -/
inductive LeafCall (K V : Type)
  | insert (entry : K × V)
  | erase (key : K)

namespace LeafCall

def key : LeafCall K V → K
  | .insert entry => entry.1
  | .erase key => key

/-- The call, with what it makes of the leaf. -/
def step (slots : Nat) (l : Leaf K V) : LeafCall K V → Option (Leaf K V)
  | .insert entry => (l.insert slots entry).map Prod.fst
  | .erase key => (l.erase key).map Prod.fst

variable {slots : Nat} {e : K × V} {k : K}

/-- An insertion that came to its end has changed nothing, or had room. -/
theorem insert_cases {r : Nat × Bool} (ran : l.insert slots e = some (l', r)) :
    l' = l ∨ ¬ l.full slots ∧ l' = l.inserted (lowerBound Prod.fst e.1 l.toList) e := by
  unfold Leaf.insert at ran
  split at ran
  · cases ran
  · rename_i room
    dsimp only at ran
    split at ran
    · cases ran
      exact .inl rfl
    · split at ran
      · cases ran
      · split at ran
        · cases ran
          exact .inr ⟨room, rfl⟩
        · cases ran

/-- An erasure that came to its end has changed nothing, or found the key. -/
theorem erase_cases {r : Nat} (ran : l.erase k = some (l', r)) :
    l' = l ∨ l.find k ≠ l.size ∧ l' = l.erased (l.find k) := by
  unfold Leaf.erase at ran
  split at ran
  · dsimp only at ran
    split at ran
    · cases ran
      exact .inl rfl
    · rename_i found
      split at ran
      · cases ran
        exact .inr ⟨found, rfl⟩
      · cases ran
  · cases ran

/-- A key that is found. -/
theorem find_spec (found : l.find k ≠ l.size) : l.find k < l.size ∧ (l.get (l.find k)).1 = k := by
  have inside : lowerBound Prod.fst k l.toList ≤ l.size := lowerBound_cells_le
  unfold Leaf.find at found ⊢
  dsimp only at found ⊢
  split at found
  · rename_i either
    rw [if_pos either]
    exact ⟨lt_of_le_of_ne inside found, either.resolve_left found⟩
  · exact absurd rfl found

/-- What a call does to a sound leaf. -/
theorem step_spec (sound : l.Sound slots) {call : LeafCall K V} (ran : call.step slots l = some l') :
    l'.Sound slots ∧ ∀ k v, k ≠ call.key → ((k, v) ∈ l'.toList ↔ (k, v) ∈ l.toList) := by
  cases call with
  | insert entry =>
    obtain ⟨⟨after, r⟩, called, rfl⟩ := Option.map_eq_some_iff.mp ran
    obtain rfl | ⟨room, rfl⟩ := insert_cases called
    · exact ⟨sound, fun _ _ _ => .rfl⟩
    · have inside : lowerBound Prod.fst entry.1 l.toList ≤ l.size := lowerBound_cells_le
      refine ⟨sound.inserted room inside, fun k v other => ?_⟩
      rw [Leaf.toList_inserted sound room inside, List.perm_middle.mem_iff, List.mem_cons,
        List.take_append_drop]
      exact or_iff_right fun same => other (congrArg Prod.fst same)
  | erase key =>
    obtain ⟨⟨after, r⟩, called, rfl⟩ := Option.map_eq_some_iff.mp ran
    obtain rfl | ⟨found, rfl⟩ := erase_cases called
    · exact ⟨sound, fun _ _ _ => .rfl⟩
    · obtain ⟨inside, same⟩ := find_spec found
      refine ⟨sound.erased inside, fun k v other => ?_⟩
      rw [Leaf.toList_erased inside, ← List.eraseIdx_eq_take_drop_succ, List.mem_eraseIdx_iff_getElem?,
        List.mem_iff_getElem?]
      refine exists_congr fun j => and_iff_right_of_imp fun at_ here => other ?_
      rw [here, Leaf.getElem?_toList inside, Option.some_inj] at at_
      rw [← same, at_]
      rfl

end LeafCall

variable [Inhabited K] [Inhabited V] {slots : Nat}

/-- **Slots.** After any calls on a leaf as it is built, no slot is in use twice, the next one to be
written is free, and a further call keeps the entries of the other keys. -/
theorem leaf_slots {start : Leaf K V}
    (built : (∃ e, start = .new e) ∨ ∃ e xs prev next, xs.length ≤ slots ∧ start = .copy e xs prev next)
    (run : Path (LeafCall.step slots) anyStep start l) :
    l.consistent.live.Nodup ∧ (¬ l.full slots → l.getInsertIdx ∉ l.consistent.live) ∧
      ∀ (call : LeafCall K V) l', call.step slots l = some l' →
        ∀ k v, k ≠ call.key → ((k, v) ∈ l'.toList ↔ (k, v) ∈ l.toList) := by
  have first : start.Sound slots := by
    obtain ⟨e, rfl⟩ | ⟨e, xs, prev, next, fits, rfl⟩ := built
    · exact Leaf.sound_new e
    · exact Leaf.sound_copy fits e prev next
  have sound : l.Sound slots := by
    refine run.keeps (I := Leaf.Sound slots) first fun l call l' kept _ ran => ?_
    exact (LeafCall.step_spec kept ran).1
  refine ⟨?_, sound.getInsertIdx_not_mem, fun call l' ran => (LeafCall.step_spec sound ran).2⟩
  have nodup : (l.allSlots slots).Nodup := sound.distinct.nodup_iff.mpr List.nodup_range
  exact (List.nodup_append.mp nodup).1

/-- Two slots, both taken, and the first given up. -/
theorem leaf_slots_two : ∃ l : Leaf Nat Nat,
    l.consistent.live = [1] ∧ l.getInsertIdx ∉ l.consistent.live := by
  have ran : ∃ l ∈ exec (LeafCall.step 2) anyStep (.new 0 : Leaf Nat Nat)
      [.insert (1, 5), .insert (2, 6), .erase 1], l.consistent.live = [1] ∧ l.size = 1 := by
    decide
  obtain ⟨l, run, live, size⟩ := Path.exists_of_exec ran
  refine ⟨l, live, (leaf_slots (.inl ⟨0, rfl⟩) run).2.1 fun full => ?_⟩
  exact absurd (size.symm.trans full) (by decide)

end Cyclone.Pmemds.BTree
