/-
# Pmemds.KeyMap — the key map follows the elements

Whatever the heaps' order, an operation that returns leaves every element where the key map has it,
and loses none: each rearrangement is made of exchanges (`Moves`), and an exchange of roots or an
insertion writes the entries of the elements it moves.

* `keymap_bijective`: along every run of insertions of new keys and of updates that return 0, with
  every transaction committed.
* `reinsert_never_replaces`: an insertion of a key that is present adds a second element of it.
* `update_committed_iff`: with an undo log, an update that returns 0 leaves what it computed exactly
  when its element did not move or went on to trade roots.
-/
import Cyclone.Pmemds.PriorityQueue
import Cyclone.Theory.Run
import Mathlib.Data.List.Nodup

namespace Cyclone.Pmemds

open Cyclone.Theory

set_option autoImplicit false

/-! ## One heap -/

namespace Tracks

variable {s : Side} {l : List Elem} {m m' : KeyMap} {e : Elem}

/-- Only the entries of the heap's own keys matter. -/
theorem congr (tracks : Tracks s ⟨l, m⟩) (same : ∀ e ∈ l, m' e.key = m e.key) : Tracks s ⟨l, m'⟩ :=
  fun i e at_ => (same e (List.mem_of_getElem? at_)).trans (tracks i e at_)

/-- An element gets a new priority. -/
theorem change (tracks : Tracks s ⟨l, m⟩) {idx : Nat} (at_ : l[idx]? = some e) (p : Nat) :
    Tracks s ⟨l.set idx ⟨e.key, p⟩, m⟩ := by
  intro i f found
  simp only [List.getElem?_set] at found
  split at found
  · rename_i same
    subst same
    split at found
    · cases found
      exact tracks idx e at_
    · cases found
  · exact tracks i f found

/-- An element is added at the end. -/
theorem snoc (tracks : Tracks s ⟨l, m⟩) (new : ∀ f ∈ l, f.key ≠ e.key) :
    Tracks s ⟨l ++ [e], Function.update m e.key (some (s.base + l.length))⟩ := by
  intro i f found
  simp only at found ⊢
  rcases Nat.lt_or_ge i l.length with old | last
  · rw [List.getElem?_append_left old] at found
    rw [Function.update_of_ne (new f (List.mem_of_getElem? found))]
    exact tracks i f found
  · rw [List.getElem?_append_right last, List.getElem?_singleton] at found
    split at found
    · cases found
      rw [Function.update_self, show i = l.length by omega]
    · cases found

/-- Another element takes the first place. -/
theorem root {e' : Elem} (tracks : Tracks s ⟨e :: l, m⟩) (same : ∀ f ∈ l, m' f.key = m f.key)
    (here : m' e'.key = some s.base) : Tracks s ⟨e' :: l, m'⟩ := by
  intro i f found
  cases i with
  | zero =>
    cases found
    exact here
  | succ i =>
    have at_ : l[i]? = some f := found
    exact (same f (List.mem_of_getElem? at_)).trans (tracks (i + 1) f found)

/-- The first element's key is not among the others. -/
theorem root_ne (tracks : Tracks s ⟨e :: l, m⟩) {f : Elem} (member : f ∈ l) : f.key ≠ e.key := by
  obtain ⟨i, at_⟩ := List.mem_iff_getElem?.mp member
  exact fun same => Nat.succ_ne_zero i (tracks.key_inj (i := i + 1) (j := 0) at_ rfl same)

end Tracks

section Changes

variable {l : List Elem} {idx : Nat} {e : Elem}

/-- The elements of a changed list. -/
theorem mem_change {f new : Elem} (member : f ∈ l.set idx new) :
    f = new ∨ (f ∈ l ∧ ∃ i, i ≠ idx ∧ l[i]? = some f) := by
  obtain ⟨i, found⟩ := List.mem_iff_getElem?.mp member
  rw [List.getElem?_set] at found
  split at found
  · split at found
    · cases found
      exact .inl rfl
    · cases found
  · rename_i other
    exact .inr ⟨List.mem_of_getElem? found, i, Ne.symm other, found⟩

/-- A new priority leaves the keys. -/
theorem map_key_change (at_ : l[idx]? = some e) (p : Nat) :
    (l.set idx ⟨e.key, p⟩).map Elem.key = l.map Elem.key := by
  have here : (l.map Elem.key)[idx]? = some e.key := by rw [List.getElem?_map, at_, Option.map_some]
  obtain ⟨low, same⟩ := List.getElem?_eq_some_iff.mp here
  rw [List.map_set]
  change (l.map Elem.key).set idx e.key = _
  rw [← same, List.set_getElem_self]

/-- A key that is nowhere in a list is nowhere in one with the same keys. -/
theorem absent_of_perm {l' : List Elem} (perm : (l'.map Elem.key).Perm (l.map Elem.key)) {key : Nat}
    (absent : ∀ f ∈ l, f.key ≠ key) : ∀ f ∈ l', f.key ≠ key := by
  intro f member same
  obtain ⟨g, old, same'⟩ := List.mem_map.mp (perm.mem_iff.mp (List.mem_map_of_mem member))
  exact absent g old (same'.trans same)

/-- Roots change places. -/
theorem trade_perm (root temp : Elem) (hs as : List Elem) :
    (temp :: hs ++ root :: as).Perm (root :: hs ++ temp :: as) :=
  ((List.perm_middle.cons temp).trans (.swap _ _ _)).trans (List.perm_middle.symm.cons root)

/-- A root is put away for a new element. -/
theorem displace_perm (e root : Elem) (hs as : List Elem) :
    (e :: hs ++ (as ++ [root])).Perm (root :: hs ++ as ++ [e]) := by
  rw [← List.append_assoc]
  exact (((List.perm_append_singleton root _).cons e).trans (.swap _ _ _)).trans
    ((List.perm_append_singleton e _).symm.cons root)

end Changes

namespace Side

variable {s : Side} {l : List Elem} {m : KeyMap} {e : Elem}

/-- An element is added at the end and rises. -/
theorem push (tracks : Tracks s ⟨l, m⟩) (new : ∀ f ∈ l, f.key ≠ e.key) :
    ∃ h, s.siftUp l.length
        ⟨l ++ [e], Function.update m e.key (some (s.base + l.length))⟩ l.length = some h ∧
      h.elems = s.rise l.length (l ++ [e]) l.length ∧ Tracks s h ∧ h.elems.Perm (l ++ [e]) ∧
      ∀ key, key ≠ e.key → (∀ f ∈ l, f.key ≠ key) → h.keymap key = m key := by
  obtain ⟨h, sifted, risen, moves⟩ := siftUp_spec l.length (tracks.snoc new)
    (show l.length < (l ++ [e]).length by simp)
  refine ⟨h, sifted, risen, moves.tracks, moves.perm, fun key other absent => ?_⟩
  refine (moves.others key ?_).trans (Function.update_of_ne other _ _)
  exact List.forall_mem_append.mpr ⟨absent, List.forall_mem_singleton.mpr (Ne.symm other)⟩

theorem rise_perm (s : Side) (fuel : Nat) (l : List Elem) (idx : Nat) :
    (s.rise fuel l idx).Perm l := by
  induction fuel generalizing l idx with
  | zero => exact .refl _
  | succ fuel ih =>
    rw [rise]
    split
    · exact .refl _
    · split
      · split
        · exact (ih _ _).trans (swapAt_perm _ _ _)
        · exact .refl _
      · exact .refl _

variable {idx : Nat}

/-- Rising writes no place behind the element. -/
theorem rise_above {l : List Elem} {j : Nat} (fuel : Nat) (above : idx < j) :
    (s.rise fuel l idx)[j]? = l[j]? := by
  induction fuel generalizing l idx with
  | zero => rfl
  | succ fuel ih =>
    have lower : parentOf idx ≤ idx := Nat.div_le_self _ _
    rw [rise]
    split
    · rfl
    · split
      · split
        · rw [ih (by omega), getElem?_swapAt_of_ne (by omega) (by omega)]
        · rfl
      · rfl

/-- An element rises when it is not the root and goes before the element at `parent_of`. -/
def risesAt (s : Side) (l : List Elem) (idx priority : Nat) : Bool :=
  idx ≠ 0 && (l[parentOf idx]?).any fun p => s.before priority p.priority

theorem risesAt_set (s : Side) (l : List Elem) (idx priority : Nat) (new : Elem) :
    s.risesAt (l.set idx new) idx priority = s.risesAt l idx priority := by
  unfold risesAt
  by_cases zero : idx = 0
  · simp [zero]
  · have lower : parentOf idx < idx := Nat.div_lt_self (Nat.pos_of_ne_zero zero) (by decide)
    rw [List.getElem?_set_ne (Nat.ne_of_gt lower)]

variable {fuel : Nat}

theorem rise_of_not {l : List Elem} (at_ : l[idx]? = some e)
    (stays : s.risesAt l idx e.priority = false) : s.rise fuel l idx = l := by
  cases fuel with
  | zero => rfl
  | succ fuel =>
    rw [rise]
    split
    · rfl
    · rename_i inner
      split
      · rename_i elem parent here above
        cases at_.symm.trans here
        rw [if_neg]
        simpa [risesAt, inner, above] using stays
      · rfl

theorem rise_ne {h : Heap} (some_ : fuel ≠ 0) (tracks : Tracks s h) (at_ : h.elems[idx]? = some e)
    (rises : s.risesAt h.elems idx e.priority = true) : s.rise fuel h.elems idx ≠ h.elems := by
  obtain ⟨fuel, rfl⟩ := Nat.exists_eq_succ_of_ne_zero some_
  simp only [risesAt, Bool.and_eq_true, decide_eq_true_eq, Option.any_eq_true] at rises
  obtain ⟨inner, parent, above, before⟩ := rises
  have lower : parentOf idx < idx := Nat.div_lt_self (Nat.pos_of_ne_zero inner) (by decide)
  have low := (List.getElem?_eq_some_iff.mp at_).1
  intro same
  have moved : (s.rise (fuel + 1) h.elems idx)[idx]? = some parent := by
    rw [rise, if_neg inner]
    simp only [at_, above, before, if_true]
    rw [rise_above fuel lower, getElem?_swapAt_left low (by omega), above]
  rw [same] at moved
  exact absurd (tracks.key_inj moved above rfl) (Nat.ne_of_gt lower)

/-- The places that `parent_of` leads through from a place to the root. -/
def ancestors : Nat → Nat → List Nat
  | 0, _ => []
  | fuel + 1, idx => if idx = 0 then [] else parentOf idx :: ancestors fuel (parentOf idx)

theorem lt_of_mem_ancestors {j : Nat} (member : j ∈ ancestors fuel idx) : j < idx := by
  induction fuel generalizing idx with
  | zero => cases member
  | succ fuel ih =>
    rw [ancestors] at member
    split at member
    · cases member
    · rename_i inner
      have lower : parentOf idx < idx := Nat.div_lt_self (Nat.pos_of_ne_zero inner) (by decide)
      rcases List.mem_cons.mp member with rfl | higher
      · exact lower
      · exact (ih higher).trans lower

/-- An element of this priority goes before all of those places. -/
def passes (s : Side) (l : List Elem) (priority : Nat) (places : List Nat) : Bool :=
  places.all fun j => (l[j]?).any fun p => s.before priority p.priority

theorem passes_cons (s : Side) (l : List Elem) (priority j : Nat) (places : List Nat) :
    s.passes l priority (j :: places) =
      ((l[j]?).any (fun p => s.before priority p.priority) && s.passes l priority places) := rfl

theorem passes_congr {l l' : List Elem} {places : List Nat} {priority : Nat}
    (same : ∀ j ∈ places, l'[j]? = l[j]?) : s.passes l' priority places = s.passes l priority places := by
  refine Bool.eq_iff_iff.mpr ?_
  simp only [passes, List.all_eq_true]
  exact forall₂_congr fun j member => by rw [same j member]

/-- The root after an element has risen: the element, if it passes all that is above it, and the old root
otherwise. -/
theorem rise_root {l : List Elem} (at_ : l[idx]? = some e) (enough : idx ≤ fuel) :
    (s.rise fuel l idx)[0]? = if s.passes l e.priority (ancestors fuel idx) then some e else l[0]? := by
  induction fuel generalizing l idx with
  | zero =>
    obtain rfl := Nat.le_zero.mp enough
    rw [rise, at_]
    exact (if_pos rfl).symm
  | succ fuel ih =>
    rw [rise, ancestors]
    split
    · rename_i zero
      rw [← zero, at_]
      exact (if_pos rfl).symm
    · rename_i inner
      have lower : parentOf idx < idx := Nat.div_lt_self (Nat.pos_of_ne_zero inner) (by decide)
      have low := (List.getElem?_eq_some_iff.mp at_).1
      have above := List.getElem?_eq_getElem (Nat.lt_trans lower low)
      simp only [at_, above, passes_cons, Option.any_some, Bool.and_eq_true]
      split
      · rename_i before
        have moved := (getElem?_swapAt_right low (Nat.lt_trans lower low)).trans at_
        have kept : ∀ j < parentOf idx, (swapAt l idx (parentOf idx))[j]? = l[j]? := fun j higher =>
          getElem?_swapAt_of_ne (by omega) (by omega)
        rw [ih moved (by omega), passes_congr fun j member => kept j (lt_of_mem_ancestors member)]
        simp only [before, true_and]
        by_cases passed : s.passes l e.priority (ancestors fuel (parentOf idx)) = true
        · rw [if_pos passed, if_pos passed]
        · -- it stops below the root, so its parent is not the root
          have far : parentOf idx ≠ 0 := by
            intro root
            rw [root] at passed
            cases fuel <;> exact passed rfl
          rw [if_neg passed, if_neg passed, kept 0 (Nat.pos_of_ne_zero far)]
      · rename_i behind
        rw [if_neg fun passed => behind passed.1]

/-- The root of a heap is replaced and sinks. -/
theorem newRoot {rank : Nat → Int} (ranks : s.Ranks rank) (tracks : Tracks s ⟨e :: l, m⟩) :
    ∃ h, s.heapify (l.length + 1) ⟨e :: l, m⟩ 0 = some h ∧
      h.elems = Theory.heapify (fun e : Elem => rank e.priority) (l.length + 1) (e :: l) 0 ∧
      Tracks s h ∧ h.elems.Perm (e :: l) ∧
      ∀ key, key ≠ e.key → (∀ f ∈ l, f.key ≠ key) → h.keymap key = m key := by
  obtain ⟨h, sunk, sank, moves⟩ := heapify_spec ranks (l.length + 1) tracks (Nat.zero_lt_succ _)
  refine ⟨h, sunk, sank, moves.tracks, moves.perm, fun key other absent => ?_⟩
  exact moves.others key (List.forall_mem_cons.mpr ⟨Ne.symm other, absent⟩)

end Side

/-- The priority of one key is changed. -/
def retally (key : Nat) (new : Nat → Nat) (l : List Elem) : List Elem :=
  l.map fun e => if e.key = key then ⟨e.key, new e.priority⟩ else e

section Retally

variable {s : Side} {l : List Elem} {m : KeyMap} {key : Nat} {new : Nat → Nat}

theorem retally_absent (absent : ∀ e ∈ l, e.key ≠ key) : retally key new l = l := by
  rw [retally, List.map_congr_left fun e member => if_neg (absent e member), List.map_id']

variable {e : Elem}

theorem retally_present (tracks : Tracks s ⟨l, m⟩) {idx : Nat} (at_ : l[idx]? = some e)
    (same : e.key = key) : retally key new l = l.set idx ⟨e.key, new e.priority⟩ := by
  refine List.ext_getElem? fun i => ?_
  rw [retally, List.getElem?_map]
  by_cases here : i = idx
  · subst here
    rw [List.getElem?_set_self (List.getElem?_eq_some_iff.mp at_).1, at_, Option.map_some, if_pos same]
  · rw [List.getElem?_set_ne (Ne.symm here)]
    cases found : l[i]? with
    | none => rfl
    | some f =>
      have other : f.key ≠ key := fun same' =>
        here (tracks.key_inj found at_ (same'.trans same.symm))
      rw [Option.map_some, if_neg other]

theorem map_key_retally (key : Nat) (new : Nat → Nat) (l : List Elem) :
    (retally key new l).map Elem.key = l.map Elem.key := by
  rw [retally, List.map_map]
  refine List.map_congr_left fun e _ => ?_
  simp only [Function.comp_apply]
  split <;> rfl

theorem retally_congr {new' : Nat → Nat}
    (same : ∀ e ∈ l, e.key = key → new e.priority = new' e.priority) :
    retally key new l = retally key new' l := by
  refine List.map_congr_left fun e member => ?_
  split
  · rename_i here
    rw [same e member here]
  · rfl

theorem mem_retally (member : e ∈ retally key new l) :
    ∃ f ∈ l, e.key = f.key ∧ (e.priority = f.priority ∨ (f.key = key ∧ e.priority = new f.priority)) := by
  obtain ⟨f, old, rfl⟩ := List.mem_map.mp member
  refine ⟨f, old, ?_⟩
  split
  · rename_i same
    exact ⟨rfl, .inr ⟨same, rfl⟩⟩
  · exact ⟨rfl, .inl rfl⟩

end Retally

/-! ## Both heaps -/

/-- The key map has the positions of both heaps, and no key is twice. -/
structure Twin (home away : Side) (w : Halves) : Prop where
  home : Tracks home ⟨w.home, w.keymap⟩
  away : Tracks away ⟨w.away, w.keymap⟩
  nodup : ((w.home ++ w.away).map Elem.key).Nodup

/-- `w'` is `w` after an operation: both heaps are tracked, their elements are those of `l`, and keys
that were in neither heap and are not `l`'s keep their entries. -/
structure Rearranged (home away : Side) (w w' : Halves) (l : List Elem) : Prop where
  homeTracks : Tracks home ⟨w'.home, w'.keymap⟩
  awayTracks : Tracks away ⟨w'.away, w'.keymap⟩
  perm : (w'.home ++ w'.away).Perm l
  others : ∀ key, (∀ f ∈ w.home ++ w.away, f.key ≠ key) → (∀ f ∈ l, f.key ≠ key) →
    w'.keymap key = w.keymap key

/-- An update of an element that is away does not move it, or goes on to trade roots: what a transaction
that is not committed rolls back is then nothing.  The root to be traded is the element itself when it
passes all that is above it, and the old root otherwise. -/
def Side.commits (away : Side) (w : Halves) (idx : Nat) (new : Elem) : Bool :=
  !away.risesAt w.away idx new.priority || (w.home[0]?).any fun root =>
    if away.passes w.away new.priority (ancestors idx idx) then away.before new.priority root.priority
    else (w.away[0]?).any fun top => away.before top.priority root.priority

/-- The same of the heap after the element has risen. -/
theorem Side.commits_eq {away : Side} {w : Halves} {idx : Nat} (low : idx < w.away.length) (new : Elem) :
    away.commits w idx new = (!away.risesAt w.away idx new.priority ||
      ((away.rise idx (w.away.set idx new) idx)[0]?).any fun temp =>
        (w.home[0]?).any fun root => away.before temp.priority root.priority) := by
  rw [commits]
  cases rises : away.risesAt w.away idx new.priority with
  | false => rfl
  | true =>
    have inner : idx ≠ 0 := by
      rintro rfl
      cases rises
    have others : ∀ j ≠ idx, (w.away.set idx new)[j]? = w.away[j]? := fun j other =>
      List.getElem?_set_ne (Ne.symm other)
    rw [rise_root (List.getElem?_set_self low) (le_refl idx),
      passes_congr fun j member => others j (Nat.ne_of_lt (lt_of_mem_ancestors member)), others 0 (Ne.symm inner)]
    congr 1
    split
    · rw [Option.any_some]
    · cases w.away[0]? with
      | none => cases w.home[0]? <;> rfl
      | some top => rfl

/-- The heaps after an update of a key that returned: it was at home and sank, or it was away and rose,
and the root of its heap then changed places with the root at home if it goes before that. -/
def Halves.Updated (rank : Nat → Int) (away : Side) (w w' : Halves) (key : Nat) (new : Nat → Nat) :
    Prop :=
  (∃ idx e, w.home[idx]? = some e ∧ e.key = key ∧ w'.away = w.away ∧
    w'.home = Theory.heapify (fun e : Elem => rank e.priority) w.home.length
      (w.home.set idx ⟨e.key, new e.priority⟩) idx) ∨
  ∃ idx e root hs temp as, w.away[idx]? = some e ∧ e.key = key ∧ w.home = root :: hs ∧
    temp :: as = away.rise idx (w.away.set idx ⟨e.key, new e.priority⟩) idx ∧
    if away.before temp.priority root.priority then
      w'.home = Theory.heapify (fun e : Elem => rank e.priority) (hs.length + 1) (temp :: hs) 0 ∧
        w'.away = root :: as
    else w'.home = w.home ∧ w'.away = temp :: as

namespace Twin

variable {home away : Side} {w : Halves} {rank : Nat → Int} {idx : Nat} {e : Elem}

theorem apart (twin : Twin home away w) : ∀ e ∈ w.home, ∀ f ∈ w.away, e.key ≠ f.key := by
  have nodup := twin.nodup
  rw [List.map_append, List.nodup_append] at nodup
  exact fun e here f there => nodup.2.2 _ (List.mem_map_of_mem here) _ (List.mem_map_of_mem there)

theorem of_apart (homeTracks : Tracks home ⟨w.home, w.keymap⟩)
    (awayTracks : Tracks away ⟨w.away, w.keymap⟩)
    (apart : ∀ e ∈ w.home, ∀ f ∈ w.away, e.key ≠ f.key) : Twin home away w := by
  refine ⟨homeTracks, awayTracks, ?_⟩
  rw [List.map_append, List.nodup_append]
  refine ⟨homeTracks.nodup, awayTracks.nodup, fun a here b there => ?_⟩
  obtain ⟨e, member, rfl⟩ := List.mem_map.mp here
  obtain ⟨f, member', rfl⟩ := List.mem_map.mp there
  exact apart e member f member'

variable {l : List Elem}

/-- The other heap as home. -/
theorem flip {l' : List Elem} {m : KeyMap} (twin : Twin home away ⟨l, l', m⟩) :
    Twin away home ⟨l', l, m⟩ :=
  of_apart twin.away twin.home fun e here f there same => twin.apart f there e here same.symm

/-- A heap that was changed and rearranged leaves the other one tracked. -/
theorem others_of_moves (twin : Twin home away w) {h : Heap} (moves : Moves home ⟨l, w.keymap⟩ h)
    (keys : (l.map Elem.key).Perm (w.home.map Elem.key)) : Tracks away ⟨w.away, h.keymap⟩ := by
  refine twin.away.congr fun f member => moves.others f.key ?_
  exact absent_of_perm keys fun e here => twin.apart e here f member

/-- The elements after an update at a position at home. -/
theorem retally_home (twin : Twin home away w) (at_ : w.home[idx]? = some e) (new : Nat → Nat) :
    retally e.key new (w.home ++ w.away) = w.home.set idx ⟨e.key, new e.priority⟩ ++ w.away := by
  have present := @retally_present _ _ _ e.key new e twin.home idx at_ rfl
  have absent := @retally_absent _ e.key new
    fun f there same => twin.apart e (List.mem_of_getElem? at_) f there same.symm
  rw [retally, List.map_append, ← retally, ← retally, absent]
  exact congrArg (· ++ w.away) present

/-- The elements after an update at a position away from home. -/
theorem retally_away (twin : Twin home away w) (at_ : w.away[idx]? = some e) (new : Nat → Nat) :
    retally e.key new (w.home ++ w.away) = w.home ++ w.away.set idx ⟨e.key, new e.priority⟩ := by
  have present := @retally_present _ _ _ e.key new e twin.away idx at_ rfl
  have absent := @retally_absent _ e.key new
    fun f there => twin.apart f there e (List.mem_of_getElem? at_)
  rw [retally, List.map_append, ← retally, ← retally, absent]
  exact congrArg (w.home ++ ·) present

/-- A priority update at home. -/
theorem sink (twin : Twin home away w) (ranks : home.Ranks rank) (at_ : w.home[idx]? = some e)
    (new : Nat → Nat) :
    ∃ h, Pmemds.sink home new ⟨w.home, w.keymap⟩ idx = some h ∧
      Rearranged home away w ⟨h.elems, w.away, h.keymap⟩ (retally e.key new (w.home ++ w.away)) ∧
      w.Updated rank away ⟨h.elems, w.away, h.keymap⟩ e.key new := by
  have low := (List.getElem?_eq_some_iff.mp at_).1
  obtain ⟨h, sunk, elems, moves⟩ := Side.heapify_spec ranks w.home.length
    (twin.home.change at_ (new e.priority)) (by simp only [List.length_set]; exact low)
  have keys := map_key_change at_ (new e.priority)
  refine ⟨h, ?_, ⟨moves.tracks, ?_, ?_, fun key absent _ => ?_⟩, .inl ⟨idx, e, at_, rfl, rfl, elems⟩⟩
  · simp only [Pmemds.sink, at_, Option.bind_eq_bind, Option.bind_some]
    exact sunk
  · exact twin.others_of_moves moves (.of_eq keys)
  · rw [twin.retally_home at_]
    exact moves.perm.append_right _
  · refine moves.others key (absent_of_perm (.of_eq keys) fun f member => ?_)
    exact absent f (List.mem_append_left _ member)

/-- The way up of an element that is away. -/
theorem climbs (twin : Twin home away w) (at_ : w.away[idx]? = some e) (p : Nat) :
    ∃ temp as m, away.siftUp idx ⟨w.away.set idx ⟨e.key, p⟩, w.keymap⟩ idx = some ⟨temp :: as, m⟩ ∧
      temp :: as = away.rise idx (w.away.set idx ⟨e.key, p⟩) idx ∧
      Moves away ⟨w.away.set idx ⟨e.key, p⟩, w.keymap⟩ ⟨temp :: as, m⟩ := by
  have low := (List.getElem?_eq_some_iff.mp at_).1
  obtain ⟨⟨elems, m⟩, sifted, risen, moves⟩ := Side.siftUp_spec idx
    (twin.away.change at_ p) (by simp only [List.length_set]; exact low)
  obtain ⟨temp, as, rfl⟩ : ∃ temp as, elems = temp :: as := by
    have length := moves.length
    simp only [List.length_set] at length
    exact List.exists_cons_of_length_pos (by omega)
  exact ⟨temp, as, m, sifted, risen, moves⟩

variable {root temp : Elem} {hs as : List Elem} {m : KeyMap} {p : Nat}

/-- The rearranged heap that is away, and the heap at home as it was. -/
theorem stays (twin : Twin home away w) (at_ : w.away[idx]? = some e)
    (moves : Moves away ⟨w.away.set idx ⟨e.key, p⟩, w.keymap⟩ ⟨as, m⟩) :
    Rearranged home away w ⟨w.home, as, m⟩ (w.home ++ w.away.set idx ⟨e.key, p⟩) := by
  have keys := map_key_change at_ p
  refine ⟨?_, moves.tracks, moves.perm.append_left _, fun key absent _ => ?_⟩
  · exact twin.flip.others_of_moves moves (.of_eq keys)
  · refine moves.others key (absent_of_perm (.of_eq keys) fun f member => ?_)
    exact absent f (List.mem_append_right _ member)

/-- A priority update away from home throws when there is no root to compare with. -/
theorem climb_nil (at_ : w.away[idx]? = some e) (none_ : w.home = []) (undoLog : Bool)
    (new : Nat → Nat) : Pmemds.climb undoLog home away new w idx = none := by
  simp [Pmemds.climb, at_, none_]

variable {new : Nat → Nat}

theorem root_of_climb (at_ : w.away[idx]? = some e) {undoLog : Bool} {A : Type}
    {f : Halves × Int → Option A} {a : A}
    (done : (Pmemds.climb undoLog home away new w idx).bind f = some a) :
    ∃ root hs, w.home = root :: hs := by
  cases first : w.home with
  | cons root hs => exact ⟨root, hs, rfl⟩
  | nil =>
    rw [climb_nil at_ first] at done
    cases done

section Trade

variable (twin : Twin home away w) (ranks : home.Ranks rank) (first : w.home = root :: hs)
  (at_ : w.away[idx]? = some e)
include twin ranks first at_

/-- The roots change places. -/
theorem trade (moves : Moves away ⟨w.away.set idx ⟨e.key, p⟩, w.keymap⟩ ⟨temp :: as, m⟩) :
    ∃ h, home.heapify w.home.length
        ⟨temp :: hs, Function.update (Function.update m root.key (some away.base)) temp.key
          (some home.base)⟩ 0 = some h ∧
      h.elems = Theory.heapify (fun e : Elem => rank e.priority) (hs.length + 1) (temp :: hs) 0 ∧
      Rearranged home away w ⟨h.elems, root :: as, h.keymap⟩
        (w.home ++ w.away.set idx ⟨e.key, p⟩) := by
  have homeTracks := twin.home
  have staying := twin.stays at_ moves
  have stayed : Twin home away ⟨w.home, temp :: as, m⟩ := by
    refine ⟨staying.homeTracks, staying.awayTracks, ?_⟩
    refine (staying.perm.map Elem.key).nodup_iff.mpr ?_
    rw [List.map_append, map_key_change at_, ← List.map_append]
    exact twin.nodup
  have foreign := stayed.apart
  rw [first] at homeTracks foreign
  have rootHere : root ∈ root :: hs := List.mem_cons_self
  have tempHere : temp ∈ temp :: as := List.mem_cons_self
  generalize keymap_eq :
    Function.update (Function.update m root.key (some away.base)) temp.key (some home.base) = m'
  have elsewhere : ∀ key, key ≠ root.key → key ≠ temp.key → m' key = m key := by
    intro key other other'
    rw [← keymap_eq, Function.update_of_ne other', Function.update_of_ne other]
  have tracks : Tracks home ⟨temp :: hs, m'⟩ := by
    have kept := stayed.home
    rw [first] at kept
    refine kept.root (fun f later => ?_) (by rw [← keymap_eq, Function.update_self])
    exact elsewhere f.key (homeTracks.root_ne later) (foreign f (List.mem_cons_of_mem root later) temp tempHere)
  obtain ⟨h, sunk, sank, homeTracks', perm, others⟩ := Side.newRoot ranks tracks
  refine ⟨h, by rw [first]; exact sunk, sank, homeTracks', ?_, ?_, fun key absent gone => ?_⟩
  · refine stayed.away.root (fun f later => ?_) ?_
    · have there := List.mem_cons_of_mem temp later
      have notRoot : f.key ≠ root.key := fun same => foreign root rootHere f there same.symm
      have notTemp := stayed.away.root_ne later
      refine (others f.key notTemp fun g home => ?_).trans (elsewhere f.key notRoot notTemp)
      exact foreign g (List.mem_cons_of_mem root home) f there
    · have notTemp := foreign root rootHere temp tempHere
      refine (others root.key notTemp fun g home => homeTracks.root_ne home).trans ?_
      rw [← keymap_eq, Function.update_of_ne notTemp, Function.update_self]
  · refine ((perm.append_right _).trans ?_).trans staying.perm
    rw [first]
    exact trade_perm root temp hs as
  · have absent' := absent_of_perm (staying.perm.map Elem.key) gone
    rw [first] at absent'
    have notTemp : key ≠ temp.key := (absent' temp (by simp)).symm
    refine (others key notTemp fun f home => absent' f (by simp [home])).trans ?_
    exact (elsewhere key (absent' root (by simp)).symm notTemp).trans (staying.others key absent gone)

/-- A priority update away from home, when there is a root at home. -/
theorem climb_eq (p_eq : new e.priority = p)
    (sifted : away.siftUp idx ⟨w.away.set idx ⟨e.key, p⟩, w.keymap⟩ idx = some ⟨temp :: as, m⟩)
    (moves : Moves away ⟨w.away.set idx ⟨e.key, p⟩, w.keymap⟩ ⟨temp :: as, m⟩) :
    if away.before temp.priority root.priority then
      ∃ h : Heap, (∀ undoLog, Pmemds.climb undoLog home away new w idx =
          some (⟨h.elems, root :: as, h.keymap⟩, 0)) ∧
        h.elems = Theory.heapify (fun e : Elem => rank e.priority) (hs.length + 1) (temp :: hs) 0 ∧
        Rearranged home away w ⟨h.elems, root :: as, h.keymap⟩
          (w.home ++ w.away.set idx ⟨e.key, p⟩)
    else ∀ undoLog, Pmemds.climb undoLog home away new w idx = some (⟨w.home,
      if undoLog then w.away.set idx ⟨e.key, p⟩ else temp :: as, m⟩, 0) := by
  subst p_eq
  split
  · rename_i ahead
    obtain ⟨h, sunk, sank, rearranged⟩ := twin.trade ranks first at_ moves
    have rootKnown : m root.key = some home.base := by
      have kept := (twin.stays at_ moves).homeTracks 0 root
      rw [first] at kept
      exact kept rfl
    have tempKnown : Function.update m root.key (some away.base) temp.key = some away.base := by
      by_cases same : temp.key = root.key
      · rw [same, Function.update_self]
      · rw [Function.update_of_ne same]
        exact moves.tracks 0 temp rfl
    refine ⟨h, fun undoLog => ?_, sank, rearranged⟩
    simp only [Pmemds.climb, at_, sifted, first, Option.bind_eq_bind, Option.bind_some,
      List.getElem?_cons_zero, ahead, rootKnown, tempKnown, if_true, List.set_cons_zero]
    rw [← first, sunk]
    rfl
  · rename_i behind
    intro undoLog
    simp only [Pmemds.climb, at_, sifted, first, Option.bind_eq_bind, Option.bind_some,
      List.getElem?_cons_zero, behind]
    rfl

/-- A priority update away from home that commits, or has nothing to roll back. -/
theorem climb (new : Nat → Nat) :
    ∃ w', (∀ undoLog, (undoLog = true → away.commits w idx ⟨e.key, new e.priority⟩ = true) →
        Pmemds.climb undoLog home away new w idx = some (w', 0)) ∧
      Rearranged home away w w' (retally e.key new (w.home ++ w.away)) ∧
      w.Updated rank away w' e.key new := by
  obtain ⟨temp, as, m, sifted, risen, moves⟩ := twin.climbs at_ (new e.priority)
  have climbed := twin.climb_eq ranks first at_ rfl sifted moves
  rw [twin.retally_away at_]
  split at climbed
  · rename_i ahead
    obtain ⟨h, climbed, sank, rearranged⟩ := climbed
    refine ⟨_, fun undoLog _ => climbed undoLog, rearranged,
      .inr ⟨idx, e, root, hs, temp, as, at_, rfl, first, risen, ?_⟩⟩
    rw [if_pos ahead]
    exact ⟨sank, rfl⟩
  · rename_i behind
    refine ⟨⟨w.home, temp :: as, m⟩, fun undoLog commits => ?_, twin.stays at_ moves,
      .inr ⟨idx, e, root, hs, temp, as, at_, rfl, first, risen, ?_⟩⟩
    · rw [climbed undoLog]
      split
      · rename_i logged
        have settled := commits logged
        rw [Side.commits_eq (List.getElem?_eq_some_iff.mp at_).1, ← risen, first] at settled
        simp only [List.getElem?_cons_zero, Option.any_some, Bool.eq_false_iff.mpr behind,
          Bool.or_false, Bool.not_eq_true'] at settled
        rw [risen, Side.rise_of_not (List.getElem?_set_self (List.getElem?_eq_some_iff.mp at_).1)
          ((Side.risesAt_set ..).trans settled)]
      · rfl
    · rw [if_neg behind]
      exact ⟨rfl, rfl⟩

/-- An element that moved and was not traded is rolled back. -/
theorem climb_ne (new : Nat → Nat) (moved : away.commits w idx ⟨e.key, new e.priority⟩ = false) :
    Pmemds.climb true home away new w idx ≠ Pmemds.climb false home away new w idx := by
  obtain ⟨temp, as, m, sifted, risen, moves⟩ := twin.climbs at_ (new e.priority)
  have climbed := twin.climb_eq ranks first at_ rfl sifted moves
  have low := (List.getElem?_eq_some_iff.mp at_).1
  rw [Side.commits_eq low, ← risen, first] at moved
  simp only [List.getElem?_cons_zero, Option.any_some, Bool.or_eq_false_iff, Bool.not_eq_false'] at moved
  rw [if_neg (Bool.eq_false_iff.mp moved.2)] at climbed
  rw [climbed, climbed]
  intro same
  have kept := congrArg Halves.away (Prod.ext_iff.mp (Option.some_inj.mp same)).1
  rw [if_pos rfl, if_neg Bool.false_ne_true, risen] at kept
  have inner : idx ≠ 0 := by
    rintro rfl
    simp [Side.risesAt] at moved
  refine Side.rise_ne inner (twin.away.change at_ (new e.priority)) (List.getElem?_set_self low) ?_ kept.symm
  exact (Side.risesAt_set ..).trans moved.1

end Trade

/-- A new element goes to the end of the heap that is away, and rises. -/
theorem putAway (twin : Twin home away w) (new : ∀ f ∈ w.home ++ w.away, f.key ≠ e.key) :
    ∃ h, away.siftUp w.away.length ⟨w.away ++ [e],
        Function.update w.keymap e.key (some (away.base + w.away.length))⟩ w.away.length = some h ∧
      h.elems = away.rise w.away.length (w.away ++ [e]) w.away.length ∧
      Rearranged home away w ⟨w.home, h.elems, h.keymap⟩ (w.home ++ (w.away ++ [e])) := by
  obtain ⟨newHome, newAway⟩ := List.forall_mem_append.mp new
  obtain ⟨h, sifted, risen, tracks, perm, others⟩ := Side.push twin.away newAway
  refine ⟨h, sifted, risen, ?_, tracks, perm.append_left _, fun key absent gone => ?_⟩
  · refine twin.home.congr fun f member => others f.key (newHome f member) fun g there same => ?_
    exact twin.apart f member g there same.symm
  · exact others key (gone e (by simp)).symm (List.forall_mem_append.mp absent).2

/-- A new element takes the place of the root at home, which is put away. -/
theorem displace (twin : Twin home away w) (ranks : home.Ranks rank) (first : w.home = root :: hs)
    (new : ∀ f ∈ w.home ++ w.away, f.key ≠ e.key) :
    ∃ h g, away.siftUp w.away.length ⟨w.away ++ [root],
        Function.update w.keymap root.key (some (away.base + w.away.length))⟩ w.away.length = some h ∧
      home.heapify w.home.length ⟨e :: hs, Function.update h.keymap e.key (some home.base)⟩ 0 = some g ∧
      h.elems = away.rise w.away.length (w.away ++ [root]) w.away.length ∧
      g.elems = Theory.heapify (fun e : Elem => rank e.priority) (hs.length + 1) (e :: hs) 0 ∧
      Rearranged home away w ⟨g.elems, h.elems, g.keymap⟩ (e :: hs ++ (w.away ++ [root])) := by
  have homeTracks := twin.home
  have apart := twin.apart
  rw [first] at homeTracks apart new
  obtain ⟨newHome, newAway⟩ := List.forall_mem_append.mp new
  have rootHere : root ∈ root :: hs := List.mem_cons_self
  obtain ⟨h, sifted, risen, awayTracks, perm, others⟩ :=
    Side.push twin.away fun f there same => apart root rootHere f there same.symm
  have tracks : Tracks home ⟨e :: hs, Function.update h.keymap e.key (some home.base)⟩ := by
    refine homeTracks.root (fun f later => ?_) (Function.update_self _ _ _)
    have there := List.mem_cons_of_mem root later
    rw [Function.update_of_ne (newHome f there)]
    exact others f.key (homeTracks.root_ne later) fun g away same => apart f there g away same.symm
  obtain ⟨g, sunk, sank, homeTracks', perm', others'⟩ := Side.newRoot ranks tracks
  have kept : ∀ key, key ≠ e.key → (∀ f ∈ hs, f.key ≠ key) → g.keymap key = h.keymap key :=
    fun key other absent => (others' key other absent).trans (Function.update_of_ne other _ _)
  refine ⟨h, g, sifted, by rw [first]; exact sunk, risen, sank, homeTracks',
    awayTracks.congr fun f member => ?_, perm'.append perm, fun key absent gone => ?_⟩
  · rcases List.mem_append.mp (perm.mem_iff.mp member) with old | last
    · exact kept f.key (newAway f old) fun f' later => apart f' (List.mem_cons_of_mem root later) f old
    · cases List.mem_singleton.mp last
      exact kept root.key (newHome root rootHere) fun f' later => homeTracks.root_ne later
  · rw [first] at absent
    refine (kept key (gone e (by simp)).symm fun f later => absent f (by simp [later])).trans ?_
    exact others key (absent root (by simp)).symm fun f there => absent f (by simp [there])

end Twin

/-! ## Runs -/

/-- A call on the queue. -/
inductive QueueOp where
  | insert (key priority : Nat)
  | increase (key delta : Nat)
  | decrease (key delta : Nat)
deriving DecidableEq, Repr

/-- A queue, and the keys inserted with the priorities they have by now. -/
structure Count where
  queue : Queue
  tally : List Elem

namespace Count

def empty : Count := ⟨.empty, []⟩

/-- One call on the queue; nothing when it throws. -/
def step (undoLog : Bool) (k : Nat) (w : Count) : QueueOp → Option Count
  | .insert key priority =>
    (w.queue.insert undoLog k key priority).map fun r => ⟨r.1, w.tally ++ [⟨key, priority⟩]⟩
  | .increase key delta =>
    (w.queue.increasePrio undoLog k key delta).map fun r =>
      ⟨r.1, retally key (raised delta) w.tally⟩
  | .decrease key delta =>
    (w.queue.decreasePrio undoLog k key delta).map fun r =>
      ⟨r.1, retally key (fun p => p - delta) w.tally⟩

end Count

/-- The heaps as an increase sees them. -/
abbrev Queue.halves (q : Queue) : Halves := ⟨q.min, q.max, q.keymap⟩

/-- The heaps as a decrease sees them. -/
abbrev Queue.flipped (q : Queue) : Halves := ⟨q.max, q.min, q.keymap⟩

/-- The call, with the result it returns; nothing when it throws. -/
def Queue.call (undoLog : Bool) (k : Nat) (q : Queue) : QueueOp → Option (Queue × Int)
  | .insert key priority => q.insert undoLog k key priority
  | .increase key delta => q.increasePrio undoLog k key delta
  | .decrease key delta => q.decreasePrio undoLog k key delta

/-- The tally after a call. -/
def QueueOp.noted (tally : List Elem) : QueueOp → List Elem
  | .insert key priority => tally ++ [⟨key, priority⟩]
  | .increase key delta => retally key (raised delta) tally
  | .decrease key delta => retally key (fun p => p - delta) tally

variable {undoLog : Bool}

theorem Count.step_call {k : Nat} {w w' : Count} {op : QueueOp}
    (taken : w.step undoLog k op = some w') :
    ∃ ret, w.queue.call undoLog k op = some (w'.queue, ret) ∧ w'.tally = op.noted w.tally := by
  cases op with
  | insert key priority =>
    obtain ⟨⟨q, ret⟩, called, rfl⟩ := Option.map_eq_some_iff.mp taken
    exact ⟨ret, called, rfl⟩
  | increase key delta =>
    obtain ⟨⟨q, ret⟩, called, rfl⟩ := Option.map_eq_some_iff.mp taken
    exact ⟨ret, called, rfl⟩
  | decrease key delta =>
    obtain ⟨⟨q, ret⟩, called, rfl⟩ := Option.map_eq_some_iff.mp taken
    exact ⟨ret, called, rfl⟩

/-- An update that climbs does not move its element, or goes on to trade roots. -/
def Queue.commits (k : Nat) (q : Queue) : QueueOp → Bool
  | .insert _ _ => true
  | .increase key delta => (q.keymap key).all fun idx => idx < k ||
      (q.max[idx - k]?).all fun e =>
        (maxSide k).commits q.halves (idx - k) ⟨e.key, raised delta e.priority⟩
  | .decrease key delta => (q.keymap key).all fun idx => k ≤ idx ||
      (q.min[idx]?).all fun e =>
        minSide.commits q.flipped idx ⟨e.key, lowered delta e.priority⟩

/-- Keys are inserted once. -/
def QueueOp.fresh (tally : List Elem) : QueueOp → Bool
  | .insert key _ => decide (key ∉ tally.map Elem.key)
  | _ => true

/-- Keys are inserted once, and every call returns 0. -/
def Orderly (undoLog : Bool) (k : Nat) (w : Count) (op : QueueOp) : Prop :=
  op.fresh w.tally = true ∧ ((w.queue.call undoLog k op).any fun r => decide (r.2 = 0)) = true

instance instDecidableQueueOrderly (undoLog : Bool) (k : Nat) (w : Count) (op : QueueOp) :
    Decidable (Orderly undoLog k w op) :=
  inferInstanceAs (Decidable (_ ∧ _))

/-- The key map has the position of each inserted key and of no other, and the max-heap is used when the
min-heap is full. -/
structure Placed (k : Nat) (w : Count) : Prop where
  twin : Twin minSide (maxSide k) w.queue.halves
  keys : ((w.queue.min ++ w.queue.max).map Elem.key).Perm (w.tally.map Elem.key)
  absent : ∀ key, key ∉ w.tally.map Elem.key → w.queue.keymap key = none
  fits : w.queue.min.length ≤ k
  full : w.queue.max ≠ [] → w.queue.min.length = k

/-- The heaps after an insertion: the min-heap had room, or the element goes to the max-heap, or it takes
the place of the root, which goes there. -/
def Queue.Inserted (k : Nat) (q q' : Queue) (e : Elem) : Prop :=
  (q.min.length < k ∧ q'.max = q.max ∧
    q'.min = minSide.rise q.min.length (q.min ++ [e]) q.min.length) ∨
  k ≤ q.min.length ∧ ∃ root hs, q.min = root :: hs ∧
    if e.priority < root.priority then q'.min = q.min ∧
      q'.max = (maxSide k).rise q.max.length (q.max ++ [e]) q.max.length
    else
      q'.min = Theory.heapify (fun e : Elem => (e.priority : Int)) (hs.length + 1) (e :: hs) 0 ∧
      q'.max = (maxSide k).rise q.max.length (q.max ++ [root]) q.max.length

namespace Rearranged

variable {home away : Side} {w w' : Halves} {l l' : List Elem}

theorem twin (rearranged : Rearranged home away w w' l) (nodup : (l.map Elem.key).Nodup) :
    Twin home away w' :=
  ⟨rearranged.homeTracks, rearranged.awayTracks, (rearranged.perm.map Elem.key).nodup_iff.mpr nodup⟩

theorem of_perm (rearranged : Rearranged home away w w' l) (perm : l.Perm l') :
    Rearranged home away w w' l' :=
  { rearranged with
    perm := rearranged.perm.trans perm
    others := fun key absent gone =>
      rearranged.others key absent fun f member => gone f (perm.mem_iff.mp member) }

/-- The other heap as home. -/
theorem flip (rearranged : Rearranged home away w w' l) :
    Rearranged away home ⟨w.away, w.home, w.keymap⟩ ⟨w'.away, w'.home, w'.keymap⟩ l where
  homeTracks := rearranged.awayTracks
  awayTracks := rearranged.homeTracks
  perm := List.perm_append_comm.trans rearranged.perm
  others := fun key absent => rearranged.others key fun f member =>
    absent f (List.perm_append_comm.mem_iff.mp member)

end Rearranged

variable {away : Side} {w : Halves} {key : Nat} {new : Nat → Nat}

theorem Halves.Updated.length {rank : Nat → Int} {w' : Halves}
    (updated : w.Updated rank away w' key new) : w'.home.length = w.home.length := by
  obtain ⟨idx, e, -, -, -, sank⟩ | ⟨idx, e, root, hs, temp, as, -, -, first, -, rest⟩ := updated
  · rw [sank, (heapify_perm ..).length_eq, List.length_set]
  · split at rest
    · rw [rest.1, (heapify_perm ..).length_eq, first]
      rfl
    · rw [rest.1]

namespace Placed

variable {undoLog : Bool} {k : Nat} {w w' : Count} {q : Queue} {key delta : Nat} {ret : Int}

theorem empty (k : Nat) : Placed k .empty where
  twin := ⟨fun i e at_ => (by cases at_), fun i e at_ => (by cases at_), List.nodup_nil⟩
  keys := .refl _
  absent := fun _ _ => rfl
  fits := Nat.zero_le k
  full := fun some_ => absurd rfl some_

variable (placed : Placed k w)
include placed

/-- Where the key map has a key. -/
theorem position (known : w.queue.keymap key ≠ none) :
    (∃ i e, w.queue.min[i]? = some e ∧ e.key = key ∧ w.queue.keymap key = some i ∧ i < k) ∨
      ∃ i e, w.queue.max[i]? = some e ∧ e.key = key ∧ w.queue.keymap key = some (k + i) := by
  have member : key ∈ w.tally.map Elem.key := by
    by_contra absent
    exact known (placed.absent key absent)
  obtain ⟨e, here, rfl⟩ := List.mem_map.mp (placed.keys.mem_iff.mpr member)
  rcases List.mem_append.mp here with here | here <;>
    obtain ⟨i, at_⟩ := List.mem_iff_getElem?.mp here
  · have place := placed.twin.home i e at_
    have low := (List.getElem?_eq_some_iff.mp at_).1
    have fits := placed.fits
    refine .inl ⟨i, e, at_, rfl, ?_, by omega⟩
    rw [← Nat.zero_add i]
    exact place
  · exact .inr ⟨i, e, at_, rfl, placed.twin.away i e at_⟩

/-- The state after a rearrangement. -/
theorem of_rearranged {l t : List Elem}
    (rearranged : Rearranged minSide (maxSide k) w.queue.halves q.halves l) (keys : (l.map Elem.key).Perm (t.map Elem.key))
    (nodup : (t.map Elem.key).Nodup) (grows : w.tally.map Elem.key ⊆ t.map Elem.key)
    (fits : q.min.length ≤ k) (full : q.max ≠ [] → q.min.length = k) : Placed k ⟨q, t⟩ where
  twin := rearranged.twin (keys.nodup_iff.mpr nodup)
  keys := (rearranged.perm.map Elem.key).trans keys
  absent := by
    intro key absent
    have old : key ∉ w.tally.map Elem.key := fun member => absent (grows member)
    refine (rearranged.others key (fun f member same => old ?_) fun f member same => absent ?_).trans
      (placed.absent key old)
    · exact placed.keys.mem_iff.mp (same ▸ List.mem_map_of_mem member)
    · exact keys.mem_iff.mp (same ▸ List.mem_map_of_mem member)
  fits := fits
  full := full

theorem tally_nodup : (w.tally.map Elem.key).Nodup :=
  placed.keys.nodup_iff.mp placed.twin.nodup

/-- The state after a priority update. -/
theorem updated {new new' : Nat → Nat}
    (rearranged : Rearranged minSide (maxSide k) w.queue.halves q.halves (retally key new (w.queue.min ++ w.queue.max)))
    (length : q.min.length = w.queue.min.length) : Placed k ⟨q, retally key new' w.tally⟩ := by
  have lengths := rearranged.perm.length_eq
  simp only [retally, List.length_append, List.length_map] at lengths
  refine placed.of_rearranged rearranged ?_ ?_ ?_ ?_ fun some_ => ?_
  · rw [map_key_retally, map_key_retally]
    exact placed.keys
  · rw [map_key_retally]
    exact placed.tally_nodup
  · rw [map_key_retally]
    exact List.Subset.refl _
  · rw [length]
    exact placed.fits
  · rw [length]
    refine placed.full fun none_ => some_ (List.eq_nil_of_length_eq_zero ?_)
    rw [none_, List.length_nil] at lengths
    omega

/-- A priority update that returned, in the terms of the heap it is home to. -/
theorem increase (called : w.queue.increasePrio undoLog k key delta = some (q, ret))
    (present : w.queue.keymap key ≠ none ∨ ret ≠ -1)
    (commits : undoLog = true → w.queue.commits k (.increase key delta) = true) :
    Rearranged minSide (maxSide k) w.queue.halves q.halves
        (retally key (raised delta) (w.queue.min ++ w.queue.max)) ∧
      w.queue.halves.Updated (fun p => p) (maxSide k) q.halves key (raised delta) ∧
      w.queue.increasePrio false k key delta = some (q, ret) := by
  rw [Queue.increasePrio] at called ⊢
  have known : w.queue.keymap key ≠ none := by
    intro absent
    rw [absent] at called
    cases called
    exact present.elim (fun known => known absent) fun returned => returned rfl
  obtain ⟨i, e, at_, rfl, place, low⟩ | ⟨i, e, at_, rfl, place⟩ := placed.position known
  · obtain ⟨h, sunk, rearranged, updated⟩ := placed.twin.sink Side.ranks_min at_ (raised delta)
    simp only [place, if_pos low, sunk, Option.bind_eq_bind, Option.bind_some] at called ⊢
    cases called
    exact ⟨rearranged, updated, rfl⟩
  · have high : ¬ k + i < k := by omega
    have offset : k + i - k = i := by omega
    simp only [place, if_neg high, offset] at called ⊢
    obtain ⟨root, hs, first⟩ := Twin.root_of_climb (w := w.queue.halves) at_ called
    obtain ⟨w', climbed, rearranged, updated⟩ :=
      placed.twin.climb Side.ranks_min first at_ (raised delta)
    rw [climbed false fun logged => absurd logged Bool.false_ne_true]
    rw [climbed undoLog fun logged => ?_] at called
    · cases called
      exact ⟨rearranged, updated, rfl⟩
    · have settled := commits logged
      simp only [Queue.commits, place, Option.all_some, offset, at_, high, decide_false,
        Bool.false_or] at settled
      exact settled

/-- A priority update the other way: the max-heap is home. -/
theorem decrease (called : w.queue.decreasePrio undoLog k key delta = some (q, ret))
    (present : w.queue.keymap key ≠ none ∨ ret ≠ -1)
    (commits : undoLog = true → w.queue.commits k (.decrease key delta) = true) :
    Rearranged (maxSide k) minSide w.queue.flipped q.flipped
        (retally key (lowered delta) (w.queue.max ++ w.queue.min)) ∧
      w.queue.flipped.Updated (fun p => -p) minSide q.flipped key (lowered delta) ∧
      w.queue.decreasePrio false k key delta = some (q, ret) := by
  rw [Queue.decreasePrio] at called ⊢
  have known : w.queue.keymap key ≠ none := by
    intro absent
    rw [absent] at called
    cases called
    exact present.elim (fun known => known absent) fun returned => returned rfl
  have twin : Twin (maxSide k) minSide w.queue.flipped := placed.twin.flip
  obtain ⟨i, e, at_, rfl, place, low⟩ | ⟨i, e, at_, rfl, place⟩ := placed.position known
  · simp only [place, if_pos low] at called ⊢
    obtain ⟨root, hs, first⟩ := Twin.root_of_climb (w := w.queue.flipped) at_ called
    obtain ⟨w', climbed, rearranged, updated⟩ :=
      twin.climb (Side.ranks_max k) first at_ (lowered delta)
    rw [climbed false fun logged => absurd logged Bool.false_ne_true]
    rw [climbed undoLog fun logged => ?_] at called
    · cases called
      exact ⟨rearranged, updated, rfl⟩
    · have settled := commits logged
      simp only [Queue.commits, place, Option.all_some, at_, Nat.not_le.mpr low, decide_false,
        Bool.false_or] at settled
      exact settled
  · have high : ¬ k + i < k := by omega
    have offset : k + i - k = i := by omega
    obtain ⟨h, sunk, rearranged, updated⟩ := twin.sink (Side.ranks_max k) at_ (lowered delta)
    simp only [place, if_neg high, offset, sunk, Option.bind_eq_bind, Option.bind_some] at called ⊢
    cases called
    exact ⟨rearranged, updated, rfl⟩

variable {e : Elem}

/-- An insertion of a new key. -/
theorem insert (new : e.key ∉ w.tally.map Elem.key)
    (called : w.queue.insert undoLog k e.key e.priority = some (q, ret)) :
    Rearranged minSide (maxSide k) w.queue.halves q.halves (w.queue.min ++ w.queue.max ++ [e]) ∧
      w.queue.Inserted k q e := by
  have fresh : ∀ f ∈ w.queue.min ++ w.queue.max, f.key ≠ e.key := fun f member same =>
    new (placed.keys.mem_iff.mp (same ▸ List.mem_map_of_mem member))
  by_cases room : w.queue.min.length < k
  · obtain ⟨h, sifted, risen, rearranged⟩ := (show Twin (maxSide k) minSide w.queue.flipped from
      placed.twin.flip).putAway fun f member => fresh f (List.perm_append_comm.mem_iff.mp member)
    rw [show minSide.base + w.queue.min.length = w.queue.min.length from Nat.zero_add _] at sifted
    simp only [Queue.insert, if_pos room, sifted, Option.bind_eq_bind, Option.bind_some,
      Option.some_inj, Prod.mk.injEq] at called
    obtain ⟨rfl, -⟩ := called
    refine ⟨rearranged.flip.of_perm ?_, .inl ⟨room, rfl, risen⟩⟩
    rw [← List.append_assoc]
    exact List.perm_append_comm.append_right _
  · rw [Queue.insert, if_neg room] at called
    cases first : w.queue.min with
    | nil => simp [first] at called
    | cons root hs =>
      have known : w.queue.keymap root.key = some 0 := placed.twin.home 0 root (by simp only [first]; rfl)
      simp only [first, List.getElem?_cons_zero, known, Option.bind_eq_bind, Option.bind_some] at called
      by_cases low : e.priority < root.priority
      · obtain ⟨h, sifted, risen, rearranged⟩ := placed.twin.putAway fresh
        change (maxSide k).siftUp _
          ⟨_, Function.update _ e.key (some (k + w.queue.max.length))⟩ _ = some h at sifted
        simp only [if_pos low, placed.absent e.key new, Option.isNone_none, if_true, sifted,
          Option.bind_some, Option.some_inj, Prod.mk.injEq] at called
        obtain ⟨rfl, -⟩ := called
        refine ⟨by rw [List.append_assoc, ← first]; exact rearranged, .inr ⟨Nat.not_lt.mp room, root, hs, first, ?_⟩⟩
        rw [if_pos low]
        exact ⟨first.symm, risen⟩
      · obtain ⟨h, g, sifted, sunk, risen, sank, rearranged⟩ :=
          placed.twin.displace Side.ranks_min first fresh
        change (maxSide k).siftUp _
          ⟨_, Function.update _ root.key (some (k + w.queue.max.length))⟩ _ = some h at sifted
        change minSide.heapify w.queue.min.length ⟨_, Function.update _ e.key (some 0)⟩ 0 = _ at sunk
        simp only [if_neg low, sifted, Option.bind_some, List.set_cons_zero] at called
        rw [← first, sunk] at called
        cases called
        exact ⟨rearranged.of_perm (displace_perm e root hs w.queue.max),
          .inr ⟨Nat.not_lt.mp room, root, hs, first, by rw [if_neg low]; exact ⟨sank, risen⟩⟩⟩

theorem step_insert (new : e.key ∉ w.tally.map Elem.key)
    (called : w.queue.insert undoLog k e.key e.priority = some (q, ret)) :
    Placed k ⟨q, w.tally ++ [e]⟩ := by
  obtain ⟨rearranged, inserted⟩ := placed.insert new called
  have lengths := rearranged.perm.length_eq
  have fits := placed.fits
  simp only [List.length_append, List.length_singleton] at lengths
  have sizes : q.min.length ≤ k ∧ (q.max ≠ [] → q.min.length = k) := by
    obtain ⟨room, same, -⟩ | ⟨whole, root, hs, first, rest⟩ := inserted
    · rw [same] at lengths ⊢
      refine ⟨by omega, fun some_ => ?_⟩
      have := placed.full some_
      omega
    · have same : q.min.length = w.queue.min.length := by
        split at rest
        · rw [rest.1]
        · rw [rest.1, (heapify_perm ..).length_eq, first]
          rfl
      exact ⟨by omega, fun _ => by omega⟩
  refine placed.of_rearranged rearranged ?_ ?_ ?_ sizes.1 sizes.2
  · rw [List.map_append, @List.map_append _ _ _ w.tally]
    exact placed.keys.append_right _
  · rw [List.map_append, List.map_cons, List.map_nil]
    exact List.nodup_append.mpr ⟨placed.tally_nodup, List.nodup_singleton _, by simpa using new⟩
  · rw [List.map_append]
    exact List.subset_append_left _ _

theorem step {op : QueueOp} (orderly : Orderly undoLog k w op)
    (commits : undoLog = true → w.queue.commits k op = true)
    (taken : w.step undoLog k op = some w') : Placed k w' := by
  obtain ⟨ret, called, tally⟩ := Count.step_call taken
  obtain ⟨new, returns⟩ := orderly
  obtain rfl : ret = 0 := by simpa [called] using returns
  obtain ⟨q, t⟩ := w'
  subst tally
  cases op with
  | insert key priority => exact placed.step_insert (e := ⟨key, priority⟩) (of_decide_eq_true new) called
  | increase key delta =>
    obtain ⟨rearranged, updated, -⟩ := placed.increase called (.inr (by decide)) commits
    exact placed.updated rearranged updated.length
  | decrease key delta =>
    obtain ⟨rearranged, updated, -⟩ := placed.decrease called (.inr (by decide)) commits
    show Placed k ⟨q, retally key (fun p => p - delta) w.tally⟩
    refine placed.updated (rearranged.flip.of_perm (List.perm_append_comm.map _)) ?_
    have lengths := rearranged.perm.length_eq
    have length := updated.length
    simp only [retally, List.length_append, List.length_map] at lengths length ⊢
    omega

omit placed in
theorem run (run : Path (Count.step undoLog k) (fun w op => Orderly undoLog k w op ∧
    (undoLog = true → w.queue.commits k op = true)) .empty w) : Placed k w :=
  run.keeps (I := Placed k) (empty k) fun _ _ _ placed ok taken => placed.step ok.1 ok.2 taken

/-- The key map has the inserted keys. -/
theorem known_iff : w.queue.keymap key ≠ none ↔ key ∈ w.tally.map Elem.key := by
  constructor
  · intro known
    by_contra absent
    exact known (placed.absent key absent)
  · intro member
    obtain ⟨e, here, rfl⟩ := List.mem_map.mp (placed.keys.mem_iff.mpr member)
    rcases List.mem_append.mp here with here | here <;>
      obtain ⟨i, at_⟩ := List.mem_iff_getElem?.mp here
    · exact ne_of_eq_of_ne (placed.twin.home i e at_) (Option.some_ne_none _)
    · exact ne_of_eq_of_ne (placed.twin.away i e at_) (Option.some_ne_none _)

theorem min_iff {i : Nat} (low : i < k) :
    w.queue.keymap key = some i ↔ ∃ e, w.queue.min[i]? = some e ∧ e.key = key := by
  constructor
  · intro place
    obtain ⟨j, e, at_, same, place', -⟩ | ⟨j, e, at_, same, place'⟩ :=
      placed.position (show w.queue.keymap key ≠ none by rw [place]; simp) <;>
      have index := Option.some_inj.mp (place'.symm.trans place)
    · exact ⟨e, index ▸ at_, same⟩
    · omega
  · rintro ⟨e, at_, rfl⟩
    have place := placed.twin.home i e at_
    rwa [show minSide.base + i = i from Nat.zero_add i] at place

theorem max_iff {j : Nat} :
    w.queue.keymap key = some (k + j) ↔ ∃ e, w.queue.max[j]? = some e ∧ e.key = key := by
  constructor
  · intro place
    obtain ⟨i, e, at_, same, place', low⟩ | ⟨i, e, at_, same, place'⟩ :=
      placed.position (show w.queue.keymap key ≠ none by rw [place]; simp) <;>
      have index := Option.some_inj.mp (place'.symm.trans place)
    · omega
    · obtain rfl : i = j := by omega
      exact ⟨e, at_, same⟩
  · rintro ⟨e, at_, rfl⟩
    exact placed.twin.away j e at_

end Placed

/-- **Bijection.** When every transaction commits, the key map has exactly the inserted keys, each at the
one place of the two heaps that holds it, and no key is lost or held twice. -/
theorem keymap_bijective {k : Nat} {w : Count}
    (run : Path (Count.step false k) (Orderly false k) .empty w) :
    (∀ key, w.queue.keymap key ≠ none ↔ key ∈ w.tally.map Elem.key) ∧
    (∀ key i, i < k →
      (w.queue.keymap key = some i ↔ ∃ e, w.queue.min[i]? = some e ∧ e.key = key)) ∧
    (∀ key j, w.queue.keymap key = some (k + j) ↔ ∃ e, w.queue.max[j]? = some e ∧ e.key = key) ∧
    ((w.queue.min ++ w.queue.max).map Elem.key).Perm (w.tally.map Elem.key) ∧
    (w.tally.map Elem.key).Nodup ∧ w.queue.min.length ≤ k ∧
    (w.queue.max ≠ [] → w.queue.min.length = k) := by
  have placed := Placed.run (run.mono fun _ _ orderly =>
    ⟨orderly, fun logged => absurd logged Bool.false_ne_true⟩)
  exact ⟨fun key => placed.known_iff, fun key i low => placed.min_iff low, fun key j => placed.max_iff,
    placed.keys, placed.tally_nodup, placed.fits, placed.full⟩

/-- Four insertions of which two go to the max-heap, an increase and a decrease that trade roots. -/
theorem keymap_bijective_trades : ∃ w : Count, w.queue.min.map Elem.key = [3, 1] ∧
    w.queue.max.map Elem.key = [2, 4] ∧ w.queue.keymap 2 = some 2 ∧
    ∀ key j, w.queue.keymap key = some (2 + j) ↔ ∃ e, w.queue.max[j]? = some e ∧ e.key = key := by
  have ran : ∃ w ∈ exec (Count.step false 2) (Orderly false 2) .empty
      [.insert 1 5, .insert 2 7, .insert 3 6, .insert 4 1, .increase 1 4, .decrease 2 5],
      w.queue.min.map Elem.key = [3, 1] ∧ w.queue.max.map Elem.key = [2, 4] ∧
        w.queue.keymap 2 = some 2 := by
    decide +kernel
  obtain ⟨w, run, top, rest, place⟩ := Path.exists_of_exec ran
  exact ⟨w, top, rest, place, (keymap_bijective run).2.2.1⟩

/-! ## An undo log -/

/-- The key map has the positions of both heaps. -/
def Queue.Agrees (k : Nat) (q : Queue) : Prop :=
  Tracks minSide ⟨q.min, q.keymap⟩ ∧ Tracks (maxSide k) ⟨q.max, q.keymap⟩

/-- A priority update, and not an insertion. -/
def QueueOp.updates : QueueOp → Bool
  | .insert _ _ => false
  | _ => true

namespace Placed

variable {k : Nat} {w : Count} {q : Queue} {op : QueueOp}

theorem bind_some_inj {A B : Type} {g : A → B} (inj : Function.Injective g) {a b : Option A}
    (same : (a.bind fun x => some (g x)) = b.bind fun x => some (g x)) : a = b :=
  Option.map_injective inj (by rw [Option.map_eq_bind, Option.map_eq_bind]; exact same)

/-- An update that moved its element and did not trade it is rolled back. -/
theorem call_ne (placed : Placed k w) (called : w.queue.call true k op = some (q, 0))
    (moved : w.queue.commits k op = false) :
    w.queue.call true k op ≠ w.queue.call false k op := by
  cases op with
  | insert key priority => cases moved
  | increase key delta =>
    simp only [Queue.commits, Option.all_eq_false, Bool.or_eq_false_iff, decide_eq_false_iff_not] at moved
    obtain ⟨idx, place, high, e, at_, moved⟩ := moved
    simp only [Queue.call, Queue.increasePrio, place, if_neg high] at called ⊢
    obtain ⟨root, hs, first⟩ := Twin.root_of_climb (w := w.queue.halves) at_ called
    refine fun same => placed.twin.climb_ne Side.ranks_min first at_ (raised delta) moved
      (bind_some_inj ?_ same)
    rintro ⟨⟨l, l', m⟩, ret⟩ ⟨⟨_, _, _⟩, _⟩ same
    cases same
    rfl
  | decrease key delta =>
    simp only [Queue.commits, Option.all_eq_false, Bool.or_eq_false_iff, decide_eq_false_iff_not,
      Nat.not_le] at moved
    obtain ⟨idx, place, low, e, at_, moved⟩ := moved
    simp only [Queue.call, Queue.decreasePrio, place, if_pos low] at called ⊢
    obtain ⟨root, hs, first⟩ := Twin.root_of_climb (w := w.queue.flipped) at_ called
    refine fun same => placed.twin.flip.climb_ne (Side.ranks_max k) first at_ (lowered delta) moved
      (bind_some_inj ?_ same)
    rintro ⟨⟨l, l', m⟩, ret⟩ ⟨⟨_, _, _⟩, _⟩ same
    cases same
    rfl

end Placed

/-- **Committed updates.** As long as keys were inserted once and every update so far committed, an update
that returns 0 leaves the heaps and the key map as it computed them, and in agreement, if and only if
its element did not rise or went on to trade roots. -/
theorem update_committed_iff {k : Nat} {w : Count} {q : Queue} {op : QueueOp}
    (run : Path (Count.step true k) (fun w op => Orderly true k w op ∧ w.queue.commits k op = true)
      .empty w)
    (updates : op.updates = true) (called : w.queue.call true k op = some (q, 0)) :
    (w.queue.call false k op = some (q, 0) ∧ q.Agrees k) ↔ w.queue.commits k op = true := by
  have placed := Placed.run (run.mono fun _ _ ok => ⟨ok.1, fun _ => ok.2⟩)
  constructor
  · rintro ⟨computed, -⟩
    by_contra moved
    exact placed.call_ne called (Bool.eq_false_iff.mpr moved) (called.trans computed.symm)
  · intro commits
    cases op with
    | insert key priority => cases updates
    | increase key delta =>
      obtain ⟨rearranged, -, same⟩ := placed.increase called (.inr (by decide)) fun _ => commits
      exact ⟨same, rearranged.homeTracks, rearranged.awayTracks⟩
    | decrease key delta =>
      obtain ⟨rearranged, -, same⟩ := placed.decrease called (.inr (by decide)) fun _ => commits
      exact ⟨same, rearranged.awayTracks, rearranged.homeTracks⟩

/-- An update that trades roots is as the call computed it. -/
theorem update_committed_trade : ∃ (w : Count) (q : Queue),
    w.queue.call true 1 (.increase 2 9) = some (q, 0) ∧ q.min = [⟨2, 14⟩] ∧ q.Agrees 1 := by
  have ran : ∃ w ∈ exec (Count.step true 1)
      (fun w op => Orderly true 1 w op ∧ w.queue.commits 1 op = true) .empty
      [.insert 1 10, .insert 2 5], w.queue.commits 1 (.increase 2 9) = true ∧
        ∃ r ∈ w.queue.call true 1 (.increase 2 9), r.2 = 0 ∧ r.1.min = [⟨2, 14⟩] := by
    decide +kernel
  obtain ⟨w, run, commits, ⟨q, ret⟩, called, rfl, top⟩ := Path.exists_of_exec ran
  exact ⟨w, q, called, top, ((update_committed_iff run rfl called).mpr commits).2⟩

/-- An update that overtakes in the max-heap and stays behind the root of the min-heap: the vector is
rolled back, and the key map is not. -/
theorem update_not_committed : ∃ (w : Count) (q : Queue),
    Path (Count.step true 1) (fun w op => Orderly true 1 w op ∧ w.queue.commits 1 op = true) .empty w ∧
    w.queue.call true 1 (.increase 3 4) = some (q, 0) ∧
    w.queue.call false 1 (.increase 3 4) ≠ some (q, 0) ∧ ¬ q.Agrees 1 := by
  have ran : ∃ w ∈ exec (Count.step true 1)
      (fun w op => Orderly true 1 w op ∧ w.queue.commits 1 op = true) .empty
      [.insert 1 10, .insert 2 5, .insert 3 3],
      (∀ r ∈ w.queue.call false 1 (.increase 3 4), r.1.max ≠ [⟨2, 5⟩, ⟨3, 7⟩]) ∧
        ∃ r ∈ w.queue.call true 1 (.increase 3 4),
          r.2 = 0 ∧ r.1.max = [⟨2, 5⟩, ⟨3, 7⟩] ∧ r.1.keymap 3 = some 1 := by
    decide +kernel
  obtain ⟨w, run, computed, ⟨q, ret⟩, called, rfl, max, place⟩ := Path.exists_of_exec ran
  simp only at max place
  refine ⟨w, q, run, called, fun same => ?_, fun agrees => ?_⟩
  · exact computed _ same max
  · have here := agrees.2 1 ⟨3, 7⟩ (by simp only [max]; rfl)
    simp [place, maxSide] at here

/-! ## Any run -/

/-- The heap has the same elements, and the map no fewer keys. -/
structure Shuffled (h h' : Heap) : Prop where
  perm : h'.elems.Perm h.elems
  known : ∀ key, h.keymap key ≠ none → h'.keymap key ≠ none

/-- And the places that are new in the map are the heap's. -/
structure Relocated (s : Side) (h h' : Heap) : Prop extends Shuffled h h' where
  places : ∀ key idx, h'.keymap key = some idx →
    h.keymap key = some idx ∨ ∃ j < h.elems.length, idx = s.base + j

variable {h : Heap}

theorem Relocated.refl (s : Side) (h : Heap) : Relocated s h h where
  perm := .refl _
  known := fun _ known => known
  places := fun _ _ found => .inl found

theorem Relocated.trans {s : Side} {h' h'' : Heap} (first : Relocated s h h')
    (second : Relocated s h' h'') : Relocated s h h'' where
  perm := second.perm.trans first.perm
  known := fun key known => second.known key (first.known key known)
  places := fun key idx found => (second.places key idx found).elim (first.places key idx) fun own =>
    .inr (first.perm.length_eq ▸ own)

theorem known_update {m : KeyMap} (known : m key ≠ none) (key' place : Nat) :
    Function.update m key' (some place) key ≠ none := by
  by_cases same : key = key'
  · rw [same, Function.update_self]
    exact Option.some_ne_none place
  · rwa [Function.update_of_ne same]

theorem place_update {m : KeyMap} {key' place idx : Nat}
    (found : Function.update m key' (some place) key = some idx) : m key = some idx ∨ idx = place := by
  by_cases same : key = key'
  · rw [same, Function.update_self] at found
    exact .inr (Option.some_inj.mp found).symm
  · rw [Function.update_of_ne same] at found
    exact .inl found

namespace Side

variable {s : Side} {h h' : Heap}

theorem swap_relocates {i j : Nat} (swapped : s.swap h i j = some h') : Relocated s h h' := by
  simp only [swap, Option.bind_eq_bind, Option.bind_eq_some_iff] at swapped
  obtain ⟨x, at_, y, at', swapped⟩ := swapped
  have low := (List.getElem?_eq_some_iff.mp at_).1
  have low' := (List.getElem?_eq_some_iff.mp at').1
  have moved : ∀ key idx, Function.update h.keymap x.key (some (s.base + j)) key = some idx →
      h.keymap key = some idx ∨ ∃ m < h.elems.length, idx = s.base + m :=
    fun key idx found => (place_update found).imp_right fun here => ⟨j, low', here⟩
  split at swapped
  · cases swapped
    exact .refl s _
  · split at swapped
    · cases swapped
      exact ⟨⟨.refl _, fun _ known => known_update known _ _⟩, moved⟩
    · cases swapped
      refine ⟨⟨?_, fun _ known => known_update (known_update known _ _) _ _⟩, fun key idx found => ?_⟩
      · rw [← swapAt_eq at_ at']
        exact swapAt_perm _ _ _
      · exact (place_update found).elim (moved key idx) fun here => .inr ⟨i, low, here⟩

variable {fuel idx : Nat}

theorem siftUp_relocates (sifted : s.siftUp fuel h idx = some h') : Relocated s h h' := by
  induction fuel generalizing h idx with
  | zero =>
    cases sifted
    exact .refl s _
  | succ fuel ih =>
    rw [siftUp] at sifted
    split at sifted
    · cases sifted
      exact .refl s _
    · simp only [Option.bind_eq_bind, Option.bind_eq_some_iff] at sifted
      obtain ⟨elem, -, parent, -, sifted⟩ := sifted
      split at sifted
      · obtain ⟨h₁, swapped, rest⟩ := Option.bind_eq_some_iff.mp sifted
        exact (swap_relocates swapped).trans (ih rest)
      · cases sifted
        exact .refl s _

theorem heapify_relocates (sunk : s.heapify fuel h idx = some h') : Relocated s h h' := by
  induction fuel generalizing h idx with
  | zero =>
    cases sunk
    exact .refl s _
  | succ fuel ih =>
    simp only [heapify, Option.bind_eq_bind, Option.bind_eq_some_iff] at sunk
    obtain ⟨right, -, best, -, sunk⟩ := sunk
    split at sunk
    · obtain ⟨h₁, swapped, rest⟩ := Option.bind_eq_some_iff.mp sunk
      exact (swap_relocates swapped).trans (ih rest)
    · cases sunk
      exact .refl s _

end Side

/-- What an update can do: the key is absent, its element sinks in the heap at home, or it climbs in the
other one. -/
inductive Halves.Updates (undoLog : Bool) (home away : Side) (new : Nat → Nat) (w : Halves) : Halves → Prop
  | absent : Updates undoLog home away new w w
  | sank {idx : Nat} {h : Heap} (sunk : sink home new ⟨w.home, w.keymap⟩ idx = some h) :
      Updates undoLog home away new w ⟨h.elems, w.away, h.keymap⟩
  | climbed {idx : Nat} {w' : Halves} {ret : Int}
      (climbed : climb undoLog home away new w idx = some (w', ret)) : Updates undoLog home away new w w'

/-- Every element's key is in the map. -/
def Halves.Known (w : Halves) : Prop := ∀ e ∈ w.home ++ w.away, w.keymap e.key ≠ none

/-- The keys of `w'` are those of `w`, and the map has no fewer. -/
structure Halves.Keeps (w w' : Halves) : Prop where
  keys : ((w'.home ++ w'.away).map Elem.key).Perm ((w.home ++ w.away).map Elem.key)
  known : ∀ key, w.keymap key ≠ none → w'.keymap key ≠ none

variable {home : Side} {idx : Nat}

theorem sink_keeps (sunk : sink home new ⟨w.home, w.keymap⟩ idx = some h) :
    w.Keeps ⟨h.elems, w.away, h.keymap⟩ := by
  obtain ⟨e, at_, sunk⟩ := Option.bind_eq_some_iff.mp sunk
  have shuffled := Side.heapify_relocates sunk
  refine ⟨?_, shuffled.known⟩
  rw [List.map_append, List.map_append]
  refine List.Perm.append_right _ ((shuffled.perm.map Elem.key).trans (.of_eq ?_))
  exact map_key_change at_ _

theorem climb_keeps {w' : Halves} {ret : Int} (known : w.Known)
    (climbed : climb undoLog home away new w idx = some (w', ret)) : w.Keeps w' := by
  simp only [climb, Option.bind_eq_bind, Option.bind_eq_some_iff] at climbed
  obtain ⟨e, at_, a, sifted, temp, top, root, first, climbed⟩ := climbed
  have shuffled := Side.siftUp_relocates sifted
  have keys : (a.elems.map Elem.key).Perm (w.away.map Elem.key) :=
    (shuffled.perm.map Elem.key).trans (.of_eq (map_key_change at_ _))
  obtain ⟨hs, home_eq⟩ : ∃ hs, w.home = root :: hs := List.head?_eq_some_iff.mp (List.head?_eq_getElem?.trans first)
  obtain ⟨as, away_eq⟩ : ∃ as, a.elems = temp :: as := List.head?_eq_some_iff.mp (List.head?_eq_getElem?.trans top)
  split at climbed
  · have rootKnown : a.keymap root.key ≠ none := shuffled.known _ (known root (by simp [home_eq]))
    have tempKnown : a.keymap temp.key ≠ none := by
      obtain ⟨f, old, same⟩ := List.mem_map.mp (keys.mem_iff.mp
        (List.mem_map_of_mem (show temp ∈ a.elems by simp [away_eq])))
      exact same ▸ shuffled.known _ (known f (List.mem_append_right _ old))
    split at climbed
    · rename_i absent
      exact absurd absent rootKnown
    · split at climbed
      · rename_i absent
        exact absurd absent (known_update tempKnown _ _)
      · obtain ⟨h, sunk, done⟩ := Option.bind_eq_some_iff.mp climbed
        cases done
        have sank := Side.heapify_relocates sunk
        refine ⟨?_, fun key old => sank.known key
          (known_update (known_update (shuffled.known key old) _ _) _ _)⟩
        have moved := sank.perm
        simp only [home_eq, List.set_cons_zero] at moved
        rw [away_eq] at keys ⊢
        refine ((moved.append_right _).trans (trade_perm root temp hs as)).map Elem.key |>.trans ?_
        rw [home_eq, List.map_append, List.map_append]
        exact keys.append_left _
  · cases climbed
    refine ⟨?_, fun key old => shuffled.known key old⟩
    rw [List.map_append, List.map_append]
    refine List.Perm.append_left _ ?_
    split
    · exact .of_eq (map_key_change at_ _)
    · exact keys

theorem Halves.Updates.keeps {w' : Halves} (known : w.Known) (updated : w.Updates undoLog home away new w') :
    w.Keeps w' := by
  cases updated with
  | absent => exact ⟨.refl _, fun _ old => old⟩
  | sank sunk => exact sink_keeps sunk
  | climbed climbed => exact climb_keeps known climbed

namespace Queue

variable {undoLog : Bool} {k : Nat} {q q' : Queue} {key delta : Nat} {ret : Int}

theorem increase_updates (called : q.increasePrio undoLog k key delta = some (q', ret)) :
    q.halves.Updates undoLog minSide (maxSide k) (raised delta) q'.halves := by
  rw [increasePrio] at called
  split at called
  · cases called
    exact .absent
  · split at called
    · obtain ⟨h, sunk, done⟩ := Option.bind_eq_some_iff.mp called
      cases done
      exact .sank sunk
    · obtain ⟨⟨w, r⟩, climbed, done⟩ := Option.bind_eq_some_iff.mp called
      cases done
      exact .climbed climbed

theorem decrease_updates (called : q.decreasePrio undoLog k key delta = some (q', ret)) :
    q.flipped.Updates undoLog (maxSide k) minSide (lowered delta) q'.flipped := by
  rw [decreasePrio] at called
  split at called
  · cases called
    exact .absent
  · split at called
    · obtain ⟨⟨w, r⟩, climbed, done⟩ := Option.bind_eq_some_iff.mp called
      cases done
      exact .climbed climbed
    · obtain ⟨h, sunk, done⟩ := Option.bind_eq_some_iff.mp called
      cases done
      exact .sank sunk

/-- An insertion adds an element, whatever the map has. -/
theorem insert_keys {priority : Nat} (known : q.halves.Known)
    (called : q.insert undoLog k key priority = some (q', ret)) :
    ((q'.min ++ q'.max).map Elem.key).Perm ((q.min ++ q.max).map Elem.key ++ [key]) ∧
      ∀ key', (q.keymap key' ≠ none ∨ key' = key) → q'.keymap key' ≠ none := by
  have written : ∀ {m : KeyMap} {key' : Nat} (place : Nat), (m key' ≠ none ∨ key' = key) →
      Function.update m key (some place) key' ≠ none := by
    rintro m key' place (old | rfl)
    · exact known_update old _ _
    · rw [Function.update_self]
      exact Option.some_ne_none place
  rw [insert] at called
  split at called
  · obtain ⟨h, sifted, done⟩ := Option.bind_eq_some_iff.mp called
    cases done
    have shuffled := Side.siftUp_relocates sifted
    refine ⟨?_, fun key' old => shuffled.known key' (written _ old)⟩
    refine ((shuffled.perm.append_right q.max).map Elem.key).trans ?_
    simp only [List.map_append, List.append_assoc]
    exact List.perm_append_comm.append_left _
  · obtain ⟨minimum, first, called⟩ := Option.bind_eq_some_iff.mp called
    obtain ⟨hs, min_eq⟩ := List.head?_eq_some_iff.mp (List.head?_eq_getElem?.trans first)
    split at called
    · obtain ⟨h, sifted, done⟩ := Option.bind_eq_some_iff.mp called
      cases done
      have shuffled := Side.siftUp_relocates sifted
      refine ⟨?_, fun key' old => shuffled.known key' (written _ old)⟩
      refine ((shuffled.perm.append_left q.min).map Elem.key).trans ?_
      simp only [List.map_append, List.append_assoc]
      exact .refl _
    · split at called
      · rename_i absent
        exact absurd absent (known minimum (by simp [min_eq]))
      · obtain ⟨h, sifted, called⟩ := Option.bind_eq_some_iff.mp called
        obtain ⟨m, sunk, done⟩ := Option.bind_eq_some_iff.mp called
        cases done
        have shuffled := Side.siftUp_relocates sifted
        have sank := Side.heapify_relocates sunk
        refine ⟨?_, fun key' old => sank.known key' (written _ (old.imp_left fun old =>
          shuffled.known key' (known_update old _ _)))⟩
        have moved := sank.perm
        simp only [min_eq, List.set_cons_zero] at moved
        refine (((moved.append shuffled.perm).trans (displace_perm ..)).map Elem.key).trans (.of_eq ?_)
        rw [min_eq, List.map_append]
        rfl

/-- The keys after a call. -/
theorem call_keys {op : QueueOp} {t : List Elem} (known : q.halves.Known)
    (keys : ((q.min ++ q.max).map Elem.key).Perm (t.map Elem.key))
    (called : q.call undoLog k op = some (q', ret)) :
    q'.halves.Known ∧ ((q'.min ++ q'.max).map Elem.key).Perm ((op.noted t).map Elem.key) := by
  have kept : ∀ (key : Nat) (new : Nat → Nat), q.halves.Keeps q'.halves →
      q'.halves.Known ∧ ((q'.min ++ q'.max).map Elem.key).Perm ((retally key new t).map Elem.key) := by
    intro key new keeps
    refine ⟨fun e member => keeps.known _ ?_, (map_key_retally key new t).symm ▸ keeps.keys.trans keys⟩
    obtain ⟨f, old, same⟩ := List.mem_map.mp (keeps.keys.mem_iff.mp (List.mem_map_of_mem member))
    exact same ▸ known f old
  cases op with
  | insert key priority =>
    obtain ⟨added, written⟩ := insert_keys known called
    refine ⟨fun e member => written _ ?_, added.trans ?_⟩
    · rcases List.mem_append.mp (added.mem_iff.mp (List.mem_map_of_mem member)) with old | last
      · obtain ⟨f, old, same⟩ := List.mem_map.mp old
        exact .inl (same ▸ known f old)
      · exact .inr (List.mem_singleton.mp last)
    · rw [QueueOp.noted, @List.map_append _ _ _ t]
      exact keys.append_right _
  | increase key delta => exact kept key (raised delta) ((increase_updates called).keeps known)
  | decrease key delta =>
    have swap : ∀ {l l' : List Elem}, ((l ++ l').map Elem.key).Perm ((l' ++ l).map Elem.key) :=
      List.perm_append_comm.map Elem.key
    have known' : q.flipped.Known := fun e member => known e (List.perm_append_comm.mem_iff.mp member)
    have keeps := (decrease_updates called).keeps known'
    exact kept key (fun p => p - delta) ⟨swap.trans (keeps.keys.trans swap), keeps.known⟩

end Queue

/-- What re-inserting a key is meant to do: its one element has the new priority and is where the map has
it, and the other elements are as before. -/
def Queue.Replaces (k : Nat) (q q' : Queue) (key priority : Nat) : Prop :=
  ((q'.min ++ q'.max).filter fun e => e.key = key) = [⟨key, priority⟩] ∧
  (∃ i, q'.keymap key = some i ∧
    (if i < k then q'.min[i]? else q'.max[i - k]?) = some ⟨key, priority⟩) ∧
  ∀ e, e.key ≠ key → (e ∈ q'.min ++ q'.max ↔ e ∈ q.min ++ q.max)

/-- **Second element.** In every state that calls lead to, with or without an undo log, an
insertion of a key that is present does not replace it: the heaps then hold two elements of it. -/
theorem reinsert_never_replaces {undoLog : Bool} {k : Nat} {w : Count} {key : Nat}
    (run : Path (Count.step undoLog k) anyStep .empty w) (present : key ∈ w.tally.map Elem.key)
    (priority : Nat) : ¬ ∃ q ret, w.queue.insert undoLog k key priority = some (q, ret) ∧
      w.queue.Replaces k q key priority := by
  obtain ⟨known, keys⟩ : w.queue.halves.Known ∧
      ((w.queue.min ++ w.queue.max).map Elem.key).Perm (w.tally.map Elem.key) := by
    refine run.keeps (I := fun w : Count => w.queue.halves.Known ∧
      ((w.queue.min ++ w.queue.max).map Elem.key).Perm (w.tally.map Elem.key))
      ⟨fun e member => absurd member List.not_mem_nil, .refl _⟩ fun t op u good _ taken => ?_
    obtain ⟨ret, called, tally⟩ := Count.step_call taken
    rw [tally]
    exact Queue.call_keys good.1 good.2 called
  rintro ⟨q, ret, called, one, -⟩
  have added := (Queue.insert_keys known called).1.count_eq key
  have once : ((q.min ++ q.max).map Elem.key).count key = 1 := by
    rw [List.count_eq_countP, List.countP_map, List.countP_eq_length_filter]
    exact congrArg List.length one
  rw [once, List.count_append, List.count_singleton_self] at added
  have held := List.count_pos_iff.mpr (keys.mem_iff.mpr present)
  omega

/-- The key is in the max-heap and is inserted with a better priority. -/
theorem reinsert_better_never_replaces : ∃ w : Count, w.queue.max = [⟨2, 3⟩] ∧
    ¬ ∃ q ret, w.queue.insert true 1 2 9 = some (q, ret) ∧ w.queue.Replaces 1 q 2 9 := by
  have ran : ∃ w ∈ exec (Count.step true 1) anyStep .empty [.insert 1 5, .insert 2 3],
      w.queue.max = [⟨2, 3⟩] ∧ 2 ∈ w.tally.map Elem.key := by
    decide
  obtain ⟨w, run, rest, present⟩ := Path.exists_of_exec ran
  exact ⟨w, rest, reinsert_never_replaces run present 9⟩

/-- A key is inserted twice, and the heap holds both elements. -/
theorem reinsert_keeps_both : ∃ (w : Count) (q : Queue),
    Path (Count.step false 2) anyStep .empty w ∧ 1 ∈ w.tally.map Elem.key ∧
    w.queue.insert false 2 1 9 = some (q, 0) ∧ q.min = [⟨1, 5⟩, ⟨1, 9⟩] ∧
    ¬ w.queue.Replaces 2 q 1 9 := by
  have ran : ∃ w ∈ exec (Count.step false 2) anyStep .empty [.insert 1 5],
      1 ∈ w.tally.map Elem.key ∧
        ∃ r ∈ w.queue.insert false 2 1 9, r.2 = 0 ∧ r.1.min = [⟨1, 5⟩, ⟨1, 9⟩] := by
    decide
  obtain ⟨w, run, present, ⟨q, ret⟩, called, rfl, both⟩ := Path.exists_of_exec ran
  refine ⟨w, q, run, present, called, both, fun replaces => ?_⟩
  have one := replaces.1
  simp [show q.min = _ from both] at one

end Cyclone.Pmemds
