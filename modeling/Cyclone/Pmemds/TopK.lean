/-
# Pmemds.TopK — what the queue answers

`Tally` is what the queue is for: the keys inserted so far with their priorities.  The queue answers
with the best of them when both heaps are in order, agree with the key map, and nothing in the
max-heap goes before anything in the min-heap (`Good`).

Sinking keeps that at every size.  Rising does not: at an even position `parent_of` names
a cousin.  In a heap of at most four elements the cousin is as good as the parent
(`rise_isHeap`), and with five elements there is a run after which `read_topK` is wrong.  As long as there
are no more than `k` keys, no order is needed (`Few`).
-/
import Cyclone.Pmemds.KeyMap

namespace Cyclone.Pmemds

open Cyclone.Theory

set_option autoImplicit false

/-! ## Rising in a small heap -/

section Rise

variable {rank : Nat → Int} {s : Side}

/-- A heap of at most four elements, pair by pair. -/
theorem isHeap_four {A : Type} {f : A → Int} {l : List A} (small : l.length ≤ 4)
    (first : ∀ x y, l[0]? = some x → l[1]? = some y → f x ≤ f y)
    (second : ∀ x y, l[0]? = some x → l[2]? = some y → f x ≤ f y)
    (third : ∀ x y, l[1]? = some x → l[3]? = some y → f x ≤ f y) : IsHeap f l := by
  intro p c child x y at_ at'
  have low := (List.getElem?_eq_some_iff.mp at').1
  have cases_ : (p = 0 ∧ c = 1) ∨ (p = 0 ∧ c = 2) ∨ (p = 1 ∧ c = 3) := by
    unfold Child at child
    omega
  rcases cases_ with ⟨rfl, rfl⟩ | ⟨rfl, rfl⟩ | ⟨rfl, rfl⟩
  · exact first x y at_ at'
  · exact second x y at_ at'
  · exact third x y at_ at'

variable {idx : Nat}

/-- An element that may only be too good for its place rises to where it belongs, if the heap has at
most four elements. -/
theorem rise_isHeap (ranks : s.Ranks rank) {l : List Elem} (small : l.length ≤ 4)
    (low : idx < l.length)
    (others : ∀ p c, Child p c → c ≠ idx → ∀ x y, l[p]? = some x → l[c]? = some y →
      rank x.priority ≤ rank y.priority)
    (grand : ∀ g c, Child g idx → Child idx c → ∀ x y, l[g]? = some x → l[c]? = some y →
      rank x.priority ≤ rank y.priority) :
    IsHeap (fun e : Elem => rank e.priority) (s.rise idx l idx) := by
  have h01 := others 0 1 (.inl rfl)
  have h02 := others 0 2 (.inr rfl)
  have h13 := others 1 3 (.inl rfl)
  have top : idx = 1 → ∀ x y, l[0]? = some x → l[3]? = some y →
      rank x.priority ≤ rank y.priority := by
    rintro rfl
    exact grand 0 3 (.inl rfl) (.inl rfl)
  clear others grand
  have range : idx = 0 ∨ idx = 1 ∨ idx = 2 ∨ idx = 3 := by omega
  rcases range with rfl | rfl | rfl | rfl
  · exact isHeap_four small (h01 (by decide)) (h02 (by decide)) (h13 (by decide))
  -- the ways up are 1-0, 2-1-0 and 3-1-0; the element stops somewhere on its way
  all_goals
    rcases l with _ | ⟨a, _ | ⟨b, _ | ⟨c, _ | ⟨d, _ | ⟨e, rest⟩⟩⟩⟩⟩ <;>
      simp only [List.length_nil, List.length_cons] at small low <;> try omega
  all_goals
    simp [Side.rise, parentOf, swapAt, ranks _ _] at h01 h02 h13 top ⊢
    split_ifs <;> refine isHeap_four (by simp) ?_ ?_ ?_ <;> simp <;> omega

variable {l : List Elem} {e : Elem}

/-- An element is added at the end and rises. -/
theorem push_isHeap (ranks : s.Ranks rank) (heap : IsHeap (fun e : Elem => rank e.priority) l)
    (few : l.length < 4) (e : Elem) :
    IsHeap (fun e : Elem => rank e.priority) (s.rise l.length (l ++ [e]) l.length) := by
  refine rise_isHeap ranks (by simp; omega) (by simp) (fun p c child other x y atP atC => ?_)
    (fun g c _ child x y _ atC => ?_)
  · have low := (List.getElem?_eq_some_iff.mp atC).1
    simp only [List.length_append, List.length_singleton] at low
    have below := child.lt
    rw [List.getElem?_append_left (by omega)] at atP atC
    exact heap p c child x y atP atC
  · have low := (List.getElem?_eq_some_iff.mp atC).1
    simp only [List.length_append, List.length_singleton] at low
    have below := child.lt
    omega

/-- An element in its place may only be too good for it, and rises. -/
theorem change_isHeap (ranks : s.Ranks rank) (heap : IsHeap (fun e : Elem => rank e.priority) l)
    (small : l.length ≤ 4) (at_ : l[idx]? = some e) (new : Elem)
    (better : rank new.priority ≤ rank e.priority) :
    IsHeap (fun e : Elem => rank e.priority) (s.rise idx (l.set idx new) idx) := by
  obtain ⟨low, here⟩ := List.getElem?_eq_some_iff.mp at_
  refine rise_isHeap ranks (by rw [List.length_set]; exact small)
    (by rw [List.length_set]; exact low) (fun g c child other x y atG atC => ?_)
    (fun g c child child' x y atG atC => ?_)
  · rw [List.getElem?_set_ne (Ne.symm other)] at atC
    by_cases up : g = idx
    · subst up
      rw [List.getElem?_set_self low] at atG
      cases atG
      exact better.trans (heap g c child e y at_ atC)
    · rw [List.getElem?_set_ne (Ne.symm up)] at atG
      exact heap g c child x y atG atC
  · rw [List.getElem?_set_ne (Nat.ne_of_gt child.lt)] at atG
    rw [List.getElem?_set_ne (Nat.ne_of_lt child'.lt)] at atC
    exact (heap g idx child x e atG at_).trans (heap idx c child' e y at_ atC)

end Rise

/-! ## Two heaps in order -/

/-- Both heaps are in order and the key map has their positions; nothing away goes before anything at
home.  `r` ranks the heap that is away. -/
structure Halved (r : Nat → Int) (home away : Side) (w : Halves) : Prop where
  homeTracks : Tracks home ⟨w.home, w.keymap⟩
  awayTracks : Tracks away ⟨w.away, w.keymap⟩
  apart : ∀ e ∈ w.home, ∀ f ∈ w.away, e.key ≠ f.key
  homeHeap : IsHeap (fun e : Elem => -r e.priority) w.home
  awayHeap : IsHeap (fun e : Elem => r e.priority) w.away
  cut : ∀ e ∈ w.home, ∀ f ∈ w.away, r e.priority ≤ r f.priority

namespace Halved

variable {r : Nat → Int} {home away : Side} {w w' : Halves} {idx : Nat} {root temp e : Elem}
  {hs as : List Elem}

theorem twin (halved : Halved r home away w) : Twin home away w :=
  .of_apart halved.homeTracks halved.awayTracks halved.apart

/-- The other heap as home. -/
theorem flip {l l' : List Elem} {m : KeyMap} (halved : Halved r home away ⟨l, l', m⟩) :
    Halved (fun p => -r p) away home ⟨l', l, m⟩ where
  homeTracks := halved.awayTracks
  awayTracks := halved.homeTracks
  apart := fun e away f home same => halved.apart f home e away same.symm
  homeHeap := by
    simp only [Int.neg_neg]
    exact halved.awayHeap
  awayHeap := halved.homeHeap
  cut := fun e away f home => Int.neg_le_neg (halved.cut f home e away)

/-- Nothing at home is further ahead than the root. -/
theorem root_ahead (halved : Halved r home away w) (first : w.home = root :: hs) :
    ∀ g ∈ w.home, r g.priority ≤ r root.priority := by
  intro g member
  have least := halved.homeHeap.root_le (show w.home[0]? = some root by rw [first]; rfl) member
  omega

/-- When a root goes before the root at home it is the element that climbed, and those behind it are as
before. -/
theorem climbed (halved : Halved r home away w) (first : w.home = root :: hs) {new : Elem}
    (perm : (temp :: as).Perm (w.away.set idx new)) (nodup : ((temp :: as).map Elem.key).Nodup)
    (ahead : r temp.priority < r root.priority) : ∀ f ∈ as, f ∈ w.away := by
  have climbs : temp = new := by
    rcases mem_change (perm.mem_iff.mp List.mem_cons_self) with same | ⟨old, -⟩
    · exact same
    · have := halved.cut root (by rw [first]; exact List.mem_cons_self) temp old
      omega
  intro f later
  rcases mem_change (perm.mem_iff.mp (List.mem_cons_of_mem temp later)) with same | ⟨old, -⟩
  · rw [List.map_cons, List.nodup_cons, climbs, ← same] at nodup
    exact absurd (List.mem_map_of_mem later) nodup.1
  · exact old

/-- A priority update in the direction of the heap at home. -/
theorem of_updated (halved : Halved r home away w) (awayRanks : away.Ranks r)
    (small : w.away.length ≤ 4) {key : Nat} {new : Nat → Nat}
    (better : ∀ e ∈ w.home ++ w.away, e.key = key → r (new e.priority) ≤ r e.priority)
    (rearranged : Rearranged home away w w' (retally key new (w.home ++ w.away)))
    (updated : w.Updated (fun p => -r p) away w' key new) : Halved r home away w' := by
  have twin' : Twin home away w' := by
    refine rearranged.twin ?_
    rw [map_key_retally]
    exact halved.twin.nodup
  suffices ordered : IsHeap (fun e : Elem => -r e.priority) w'.home ∧
      IsHeap (fun e : Elem => r e.priority) w'.away ∧
      ∀ e ∈ w'.home, ∀ f ∈ w'.away, r e.priority ≤ r f.priority from
    ⟨twin'.home, twin'.away, twin'.apart, ordered.1, ordered.2.1, ordered.2.2⟩
  obtain ⟨idx, e, at_, same, stays, sank⟩ |
    ⟨idx, e, root, hs, temp, as, at_, same, first, risen, rest⟩ := updated
  · have gain := better e (List.mem_append_left _ (List.mem_of_getElem? at_)) same
    rw [stays, sank]
    refine ⟨halved.homeHeap.sink at_ (Int.neg_le_neg gain), halved.awayHeap,
      fun f member g there => ?_⟩
    rcases mem_change ((heapify_perm ..).mem_iff.mp member) with rfl | ⟨old, -⟩
    · exact gain.trans (halved.cut e (List.mem_of_getElem? at_) g there)
    · exact halved.cut f old g there
  · have gain := better e (List.mem_append_right _ (List.mem_of_getElem? at_)) same
    have heap := change_isHeap (s := away) awayRanks halved.awayHeap small at_
      ⟨e.key, new e.priority⟩ gain
    rw [← risen] at heap
    have perm : (temp :: as).Perm (w.away.set idx ⟨e.key, new e.priority⟩) := by
      rw [risen]
      exact Side.rise_perm ..
    have top : ∀ g ∈ temp :: as, r temp.priority ≤ r g.priority := fun g there => heap.root_le rfl there
    split at rest
    · rename_i before
      have ahead := (awayRanks _ _).mp before
      have nodup : ((temp :: as).map Elem.key).Nodup := by
        refine (perm.map Elem.key).nodup_iff.mpr ?_
        rw [map_key_change at_]
        exact halved.awayTracks.nodup
      have old := halved.climbed first perm nodup ahead
      have homeHeap := halved.homeHeap
      have bound := halved.root_ahead first
      have cut := halved.cut
      rw [first] at homeHeap bound cut
      have behind : ∀ g ∈ root :: as, r root.priority ≤ r g.priority := by
        intro g there
        rcases List.mem_cons.mp there with rfl | later
        · exact le_refl _
        · exact cut root List.mem_cons_self g (old g later)
      rw [rest.1, rest.2]
      refine ⟨homeHeap.newRoot, fun q c child x y atQ atC => ?_, fun f member g there => ?_⟩
      · cases q with
        | zero =>
          cases atQ
          exact behind y (List.mem_of_getElem? atC)
        | succ q =>
          obtain ⟨c, rfl⟩ := Nat.exists_eq_succ_of_ne_zero (Nat.ne_of_gt (Nat.zero_lt_of_lt child.lt))
          exact heap (q + 1) (c + 1) child x y atQ atC
      · refine le_trans ?_ (behind g there)
        rcases List.mem_cons.mp ((heapify_perm ..).mem_iff.mp member) with rfl | later
        · exact le_of_lt ahead
        · exact bound f (List.mem_cons_of_mem root later)
    · rename_i behind
      have notAhead := mt (awayRanks _ _).mpr behind
      rw [rest.1, rest.2]
      refine ⟨halved.homeHeap, heap, fun f member g there => ?_⟩
      have bound := halved.root_ahead first f member
      have bound' := top g there
      omega

end Halved

/-- An element that is away and gets priority `new` stays where it is, or goes before the root at home
and so trades places with it. -/
def Side.settles (away : Side) (w : Halves) (idx new : Nat) : Bool :=
  idx = 0 || !((w.away[parentOf idx]?).any fun p => away.before new p.priority) ||
    (w.home[0]?).any fun root => away.before new root.priority

/-- An element that settles does not move, or its heap's root goes before the root at home. -/
theorem Halved.commits_of_settles {r : Nat → Int} {home away : Side} {w : Halves} {idx p : Nat}
    {e : Elem} (halved : Halved r home away w) (awayRanks : away.Ranks r)
    (small : w.away.length ≤ 4) (at_ : w.away[idx]? = some e) (better : r p ≤ r e.priority)
    (settles : away.settles w idx p = true) : away.commits w idx ⟨e.key, p⟩ = true := by
  simp only [Side.settles, Bool.or_eq_true, Bool.not_eq_true', decide_eq_true_eq] at settles
  rw [Side.commits_eq (List.getElem?_eq_some_iff.mp at_).1, Bool.or_eq_true, Bool.not_eq_true']
  rcases settles with (zero | stays) | ahead
  · exact .inl (by simp [Side.risesAt, zero])
  · exact .inl (by rw [Side.risesAt, stays, Bool.and_false])
  · have heap := change_isHeap (s := away) awayRanks halved.awayHeap small at_
      ⟨e.key, p⟩ better
    have perm := away.rise_perm idx (w.away.set idx ⟨e.key, p⟩) idx
    have low := (List.getElem?_eq_some_iff.mp at_).1
    generalize away.rise idx (w.away.set idx ⟨e.key, p⟩) idx = risen at heap perm
    obtain ⟨root, first, before⟩ := (Option.any_eq_true _ _).mp ahead
    cases risen with
    | nil => simp [List.length_eq_zero_iff.mp (by simpa using perm.length_eq.symm)] at low
    | cons temp as =>
      have member := List.mem_of_getElem? (List.getElem?_set_self (a := ⟨e.key, p⟩) low)
      have top : r temp.priority ≤ r p := heap.root_le rfl (perm.mem_iff.mpr member)
      have less := (awayRanks _ _).mp before
      rw [first]
      exact .inr ((awayRanks _ _).mpr (lt_of_le_of_lt top less))

/-! ## Runs -/

/-- Keys are inserted once, updates address inserted keys, and no priority falls below zero. -/
def Allowed (w : Count) : QueueOp → Prop
  | .insert key priority => (∀ e ∈ w.tally, e.key ≠ key) ∧ priority < 2 ^ 64
  | .increase key delta => (∃ e ∈ w.tally, e.key = key) ∧ delta < 2 ^ 64
  | .decrease key delta => ∃ e ∈ w.tally, e.key = key ∧ delta ≤ e.priority

instance (w : Count) : ∀ op, Decidable (Allowed w op)
  | .insert _ _ => inferInstanceAs (Decidable ((∀ e ∈ w.tally, _) ∧ _))
  | .increase _ _ => inferInstanceAs (Decidable ((∃ e ∈ w.tally, _) ∧ _))
  | .decrease _ _ => inferInstanceAs (Decidable (∃ e ∈ w.tally, _ ∧ _))

/-- No heap gets a fifth element, no priority wraps, and with an undo log an update that climbs either
does not move its element or goes on to trade roots. -/
def Fine (undoLog : Bool) (k : Nat) (w : Count) : QueueOp → Prop
  | .insert _ _ =>
    (if w.queue.min.length < k then w.queue.min.length else w.queue.max.length) < 4
  | .increase key delta =>
    ∀ e ∈ w.tally, e.key = key → e.priority + delta < 2 ^ 64 ∧
      (undoLog = true → ∀ idx ∈ w.queue.keymap key, k ≤ idx →
        (maxSide k).settles ⟨w.queue.min, w.queue.max, w.queue.keymap⟩ (idx - k)
          (e.priority + delta) = true)
  | .decrease key delta =>
    ∀ e ∈ w.tally, e.key = key →
      (undoLog = true → ∀ idx ∈ w.queue.keymap key, idx < k →
        minSide.settles ⟨w.queue.max, w.queue.min, w.queue.keymap⟩ idx (e.priority - delta) = true)

instance (undoLog : Bool) (k : Nat) (w : Count) : ∀ op, Decidable (Fine undoLog k w op)
  | .insert _ _ => inferInstanceAs (Decidable (_ < 4))
  | .increase key _ =>
    inferInstanceAs (Decidable (∀ e ∈ w.tally, _ → _ ∧ (_ → ∀ idx ∈ w.queue.keymap key, _)))
  | .decrease key _ =>
    inferInstanceAs (Decidable (∀ e ∈ w.tally, _ → (_ → ∀ idx ∈ w.queue.keymap key, _)))

/-- The queue holds the tally, best elements first. -/
structure Good (k : Nat) (w : Count) : Prop where
  halved : Halved (fun p => -(p : Int)) minSide (maxSide k)
    ⟨w.queue.min, w.queue.max, w.queue.keymap⟩
  perm : (w.queue.min ++ w.queue.max).Perm w.tally
  absent : ∀ key, (∀ e ∈ w.tally, e.key ≠ key) → w.queue.keymap key = none
  fits : w.queue.min.length ≤ k
  full : w.queue.max ≠ [] → w.queue.min.length = k
  small : w.queue.min.length ≤ 4 ∧ w.queue.max.length ≤ 4
  bounded : ∀ e ∈ w.tally, e.priority < 2 ^ 64

namespace Good

variable {undoLog : Bool} {k : Nat} {w w' : Count}

theorem empty (k : Nat) : Good k .empty := by
  have nothing : ∀ f : Elem → Int, IsHeap f [] := fun f p c _ x y at_ => absurd at_ (by simp)
  refine ⟨⟨fun i e at_ => ?_, fun i e at_ => ?_, ?_, nothing _, nothing _, ?_⟩, .refl _, fun _ _ => rfl,
    Nat.zero_le k, fun some_ => absurd rfl some_, ⟨Nat.zero_le 4, Nat.zero_le 4⟩, ?_⟩
  · cases at_
  · cases at_
  · exact fun e member => absurd member List.not_mem_nil
  · exact fun e member => absurd member List.not_mem_nil
  · exact fun e member => absurd member List.not_mem_nil

variable (good : Good k w)
include good

theorem placed : Placed k w where
  twin := good.halved.twin
  keys := good.perm.map Elem.key
  absent := fun key absent => good.absent key fun _ member same =>
    absent (same ▸ List.mem_map_of_mem member)
  fits := good.fits
  full := good.full

omit good in
theorem of_placed (placed : Placed k w)
    (halved : Halved (fun p => -(p : Int)) minSide (maxSide k) w.queue.halves)
    (perm : (w.queue.min ++ w.queue.max).Perm w.tally)
    (small : w.queue.min.length ≤ 4 ∧ w.queue.max.length ≤ 4)
    (bounded : ∀ e ∈ w.tally, e.priority < 2 ^ 64) : Good k w :=
  ⟨halved, perm, fun key absent => placed.absent key fun member =>
    (List.mem_map.mp member).elim fun e known => absent e known.1 known.2,
    placed.fits, placed.full, small, bounded⟩

omit good in
/-- The min-heap is ranked against the rank of the max-heap. -/
theorem ranks_home : minSide.Ranks fun p => -(-(p : Int)) := by
  simp only [Int.neg_neg]
  exact Side.ranks_min

/-- An element of the tally is known by its key. -/
theorem eq_of_key {e f : Elem} (known : e ∈ w.tally) (known' : f ∈ w.tally)
    (same : e.key = f.key) : e = f :=
  List.inj_on_of_nodup_map good.placed.tally_nodup known known' same

variable {q : Queue} {key : Nat} {new : Nat → Nat}

/-- A priority update that rearranged the heaps. -/
theorem changed (halved : Halved (fun p => -(p : Int)) minSide (maxSide k) q.halves)
    (rearranged : Rearranged minSide (maxSide k) w.queue.halves q.halves
      (retally key new (w.queue.min ++ w.queue.max)))
    (length : q.min.length = w.queue.min.length)
    (bounded : ∀ e ∈ w.tally, e.key = key → new e.priority < 2 ^ 64) :
    Good k ⟨q, retally key new w.tally⟩ := by
  have lengths := rearranged.perm.length_eq
  have small := good.small
  simp only [retally, List.length_append, List.length_map] at lengths
  refine of_placed (good.placed.updated rearranged length) halved
    (rearranged.perm.trans (good.perm.map _)) (by simp only; omega) fun e member => ?_
  obtain ⟨f, old, -, same | ⟨same, changed⟩⟩ := mem_retally member
  · rw [same]
    exact good.bounded f old
  · rw [changed]
    exact bounded f old same

variable {delta : Nat}

theorem increase (allowed : Allowed w (.increase key delta))
    (fine : Fine undoLog k w (.increase key delta))
    (taken : w.step undoLog k (.increase key delta) = some w') : Good k w' := by
  obtain ⟨⟨e, member, rfl⟩, -⟩ := allowed
  obtain ⟨inRange, settles⟩ := fine e member rfl
  have sum := raised_eq inRange
  have known := good.placed.known_iff.mpr (List.mem_map_of_mem member)
  have only : ∀ f ∈ w.queue.min ++ w.queue.max, f.key = e.key → f = e := fun f here same =>
    good.eq_of_key (good.perm.mem_iff.mp here) member same
  have better : ∀ f ∈ w.queue.min ++ w.queue.max, f.key = e.key →
      -(raised delta f.priority : Int) ≤ -(f.priority : Int) := by
    intro f here same
    rw [only f here same, sum]
    omega
  obtain ⟨ret, called, tally⟩ := Count.step_call taken
  obtain ⟨rearranged, updated, -⟩ := good.placed.increase called (.inl known) (by
    intro logged
    obtain ⟨i, f, -, -, place, low⟩ | ⟨i, f, at_, same, place⟩ := good.placed.position known
    · simp [Queue.commits, place, low]
    · have offset : k + i - k = i := by omega
      obtain rfl := only f (List.mem_append_right _ (List.mem_of_getElem? at_)) same
      have settled := settles logged (k + i) place (Nat.le_add_right k i)
      rw [offset, ← sum] at settled
      simp only [Queue.commits, place, Option.all_some, offset, at_]
      rw [good.halved.commits_of_settles (Side.ranks_max k) good.small.2 at_
        (better f (List.mem_append_right _ (List.mem_of_getElem? at_)) rfl) settled, Bool.or_true])
  have halved := good.halved.of_updated (Side.ranks_max k) good.small.2 better rearranged
    (by simpa only [Int.neg_neg] using updated)
  obtain ⟨q, t⟩ := w'
  cases tally
  exact good.changed halved rearranged updated.length fun f _ _ => Nat.mod_lt _ (by decide)

theorem decrease (allowed : Allowed w (.decrease key delta))
    (fine : Fine undoLog k w (.decrease key delta))
    (taken : w.step undoLog k (.decrease key delta) = some w') : Good k w' := by
  obtain ⟨e, member, rfl, enough⟩ := allowed
  have settles := fine e member rfl
  have difference := lowered_eq enough (good.bounded e member)
  have known := good.placed.known_iff.mpr (List.mem_map_of_mem member)
  have only : ∀ f ∈ w.queue.max ++ w.queue.min, f.key = e.key → f = e := fun f here same =>
    good.eq_of_key (good.perm.mem_iff.mp (List.perm_append_comm.mem_iff.mp here)) member same
  have better : ∀ f ∈ w.queue.max ++ w.queue.min, f.key = e.key →
      -(-(lowered delta f.priority : Int)) ≤ -(-(f.priority : Int)) := by
    intro f here same
    rw [only f here same, difference]
    omega
  obtain ⟨ret, called, tally⟩ := Count.step_call taken
  obtain ⟨rearranged, updated, -⟩ := good.placed.decrease called (.inl known) (by
    intro logged
    obtain ⟨i, f, at_, same, place, low⟩ | ⟨i, f, -, -, place⟩ := good.placed.position known
    · obtain rfl := only f (List.mem_append_right _ (List.mem_of_getElem? at_)) same
      have settled := settles logged i place low
      rw [← difference] at settled
      simp only [Queue.commits, place, Option.all_some, at_]
      rw [good.halved.flip.commits_of_settles ranks_home good.small.1 at_
        (better f (List.mem_append_right _ (List.mem_of_getElem? at_)) rfl) settled, Bool.or_true]
    · simp [Queue.commits, place])
  have halved := (good.halved.flip.of_updated ranks_home good.small.1 better rearranged
    (by simpa only [Int.neg_neg] using updated)).flip
  simp only [Int.neg_neg] at halved
  obtain ⟨q, t⟩ := w'
  have lengths := rearranged.perm.length_eq
  have length := updated.length
  simp only [retally, List.length_append, List.length_map] at lengths length
  have noted : retally e.key (fun p => p - delta) w.tally = retally e.key (lowered delta) w.tally :=
    retally_congr fun f known same => by rw [good.eq_of_key known member same, difference]
  rw [QueueOp.noted, noted] at tally
  cases tally
  exact good.changed halved (rearranged.flip.of_perm (List.perm_append_comm.map _))
    (by omega) fun f _ _ => Nat.mod_lt _ (by decide)

theorem insert {priority : Nat} (allowed : Allowed w (.insert key priority))
    (fine : Fine undoLog k w (.insert key priority))
    (taken : w.step undoLog k (.insert key priority) = some w') : Good k w' := by
  obtain ⟨new, inRange⟩ := allowed
  have fresh : key ∉ w.tally.map Elem.key := fun member =>
    (List.mem_map.mp member).elim fun e known => new e known.1 known.2
  obtain ⟨ret, called, tally⟩ := Count.step_call taken
  obtain ⟨q, t⟩ := w'
  cases tally
  have placed := good.placed.step_insert (e := ⟨key, priority⟩) fresh called
  obtain ⟨rearranged, inserted⟩ := good.placed.insert (e := ⟨key, priority⟩) fresh called
  have lengths := rearranged.perm.length_eq
  have small := good.small
  simp only [List.length_append, List.length_singleton] at lengths
  suffices ordered : (IsHeap (fun e : Elem => -(-(e.priority : Int))) q.min ∧
      IsHeap (fun e : Elem => -(e.priority : Int)) q.max ∧
      ∀ e ∈ q.min, ∀ f ∈ q.max, -(e.priority : Int) ≤ -(f.priority : Int)) ∧
      q.min.length ≤ 4 ∧ q.max.length ≤ 4 by
    refine of_placed placed ⟨placed.twin.home, placed.twin.away, placed.twin.apart, ordered.1.1,
      ordered.1.2.1, ordered.1.2.2⟩ (rearranged.perm.trans (good.perm.append_right _)) ordered.2
      fun e member => ?_
    rcases List.mem_append.mp member with old | last
    · exact good.bounded e old
    · cases List.mem_singleton.mp last
      exact inRange
  obtain ⟨room, same, risen⟩ | ⟨whole, root, hs, first, rest⟩ := inserted
  · simp only [Fine, if_pos room] at fine
    have none_ : w.queue.max = [] := by
      by_contra some_
      have := good.full some_
      omega
    rw [same, none_] at lengths ⊢
    refine ⟨⟨?_, fun p c _ x y at_ => (by cases at_), fun e _ f there => absurd there List.not_mem_nil⟩,
      by simp only [List.length_nil] at lengths; omega, Nat.zero_le 4⟩
    rw [risen]
    exact push_isHeap ranks_home good.halved.homeHeap fine _
  · simp only [Fine, if_neg (Nat.not_lt.mpr whole)] at fine
    have heap := fun e => push_isHeap (Side.ranks_max k) good.halved.awayHeap fine e
    have homeHeap := good.halved.homeHeap
    have cut := good.halved.cut
    have ahead := good.halved.root_ahead first
    have members : ∀ e, ∀ f ∈ (maxSide k).rise w.queue.max.length (w.queue.max ++ [e]) w.queue.max.length,
        f ∈ w.queue.max ∨ f = e := fun e f there => (List.mem_append.mp
      (((maxSide k).rise_perm ..).mem_iff.mp there)).imp_right List.mem_singleton.mp
    split at rest
    · rename_i low
      rw [rest.1] at lengths
      have bound : q.max.length ≤ 4 := by omega
      rw [rest.1]
      refine ⟨⟨homeHeap, by rw [rest.2]; exact heap _, fun e here f there => ?_⟩, small.1, bound⟩
      rw [rest.2] at there
      rcases members _ f there with old | rfl
      · exact cut e here f old
      · have := ahead e here
        simp only at this low ⊢
        omega
    · rename_i high
      have length : q.min.length = w.queue.min.length := by
        rw [rest.1, (heapify_perm ..).length_eq, first]
        rfl
      simp only [first, Int.neg_neg] at homeHeap cut ahead
      simp only [Int.neg_neg]
      refine ⟨⟨by rw [rest.1]; exact homeHeap.newRoot, by rw [rest.2]; exact heap root, ?_⟩, by omega⟩
      intro e here f there
      rw [rest.1] at here
      rw [rest.2] at there
      have above : -(e.priority : Int) ≤ -(root.priority : Int) := by
        rcases List.mem_cons.mp ((heapify_perm ..).mem_iff.mp here) with rfl | later
        · simp only at high ⊢
          omega
        · exact ahead e (List.mem_cons_of_mem root later)
      refine above.trans ?_
      rcases members root f there with old | rfl
      · exact cut root List.mem_cons_self f old
      · exact le_refl _

theorem step {op : QueueOp} (ok : Allowed w op ∧ Fine undoLog k w op)
    (taken : w.step undoLog k op = some w') : Good k w' := by
  cases op with
  | insert key priority => exact good.insert ok.1 ok.2 taken
  | increase key delta => exact good.increase ok.1 ok.2 taken
  | decrease key delta => exact good.decrease ok.1 ok.2 taken

omit good in
theorem run (run : Path (Count.step undoLog k) (fun w op => Allowed w op ∧ Fine undoLog k w op)
    .empty w) : Good k w :=
  run.keeps (I := Good k) (empty k) fun _ _ _ good ok taken => good.step ok taken

end Good

/-- No more than `k` keys: all of them are in the min-heap, in whatever order. -/
def Few (k : Nat) (w : Count) : Prop := w.tally.length ≤ k → Placed k w ∧ w.queue.max = []

namespace Few

variable {undoLog : Bool} {k key : Nat} {w w' : Count}

theorem step (few : Few k w) {op : QueueOp} (allowed : Allowed w op)
    (taken : w.step undoLog k op = some w') : Few k w' := by
  intro bound
  obtain ⟨ret, called, tally⟩ := Count.step_call taken
  obtain ⟨q, t⟩ := w'
  cases tally
  cases op with
  | insert key priority =>
    simp only [List.length_append, List.length_singleton] at bound
    obtain ⟨placed, none_⟩ := few (Nat.le_of_succ_le bound)
    have fresh : key ∉ w.tally.map Elem.key := fun member =>
      (List.mem_map.mp member).elim fun e known => allowed.1 e known.1 known.2
    refine ⟨placed.step_insert (e := ⟨key, priority⟩) fresh called, ?_⟩
    obtain ⟨-, same, -⟩ | ⟨whole, -⟩ := (placed.insert (e := ⟨key, priority⟩) fresh called).2
    · exact same.trans none_
    · have sizes := placed.keys.length_eq
      simp only [none_, List.append_nil, List.length_map] at sizes
      omega
  | increase key delta =>
    simp only [retally, List.length_map] at bound
    obtain ⟨placed, none_⟩ := few bound
    obtain ⟨⟨e, member, rfl⟩, -⟩ := allowed
    have known := placed.known_iff.mpr (List.mem_map_of_mem member)
    obtain ⟨rearranged, updated, -⟩ := placed.increase called (.inl known) (by
      intro _
      obtain ⟨i, f, -, -, place, low⟩ | ⟨i, f, at_, -⟩ := placed.position known
      · simp [Queue.commits, place, low]
      · simp [none_] at at_)
    refine ⟨placed.updated rearranged updated.length, List.eq_nil_of_length_eq_zero ?_⟩
    have lengths := rearranged.perm.length_eq
    have length := updated.length
    simp only [retally, none_, List.length_append, List.length_map, List.length_nil] at lengths length ⊢
    omega
  | decrease key delta =>
    -- the call looks for the root of the max-heap, and throws
    simp only [retally, List.length_map] at bound
    obtain ⟨placed, none_⟩ := few bound
    obtain ⟨e, member, rfl, -⟩ := allowed
    obtain ⟨i, f, at_, -, place, low⟩ | ⟨i, f, at_, -⟩ :=
      placed.position (placed.known_iff.mpr (List.mem_map_of_mem member))
    · simp only [Queue.call, Queue.decreasePrio, place, if_pos low] at called
      obtain ⟨root, hs, first⟩ := Twin.root_of_climb (w := w.queue.flipped) at_ called
      rw [show w.queue.flipped.home = [] from none_] at first
      cases first
    · simp [none_] at at_

theorem run (run : Path (Count.step undoLog k) Allowed .empty w) : Few k w :=
  run.keeps (I := Few k) (fun _ => ⟨.empty k, rfl⟩) fun _ _ _ few allowed taken => few.step allowed taken

end Few

/-- What `read_topK` is to answer: as many of the inserted keys as it can, and the best. -/
def Count.Best (k : Nat) (w : Count) : Prop :=
  w.queue.readTopK.length = min k w.tally.length ∧ w.queue.readTopK.Nodup ∧
  (∀ key ∈ w.queue.readTopK, ∃ e ∈ w.tally, e.key = key) ∧
  ∀ e ∈ w.tally, ∀ f ∈ w.tally, e.key ∈ w.queue.readTopK → f.key ∉ w.queue.readTopK →
    f.priority ≤ e.priority

theorem Placed.best {k : Nat} {w : Count} (placed : Placed k w)
    (cut : ∀ e ∈ w.tally, ∀ f ∈ w.tally, e.key ∈ w.queue.readTopK → f.key ∉ w.queue.readTopK →
      f.priority ≤ e.priority) : w.Best k := by
  have fits := placed.fits
  have length := placed.keys.length_eq
  simp only [List.length_append, List.length_map] at length
  refine ⟨?_, placed.twin.home.nodup, fun key member => ?_, cut⟩
  · rw [Queue.readTopK, List.length_map]
    by_cases none_ : w.queue.max = []
    · rw [none_, List.length_nil] at length
      omega
    · have := placed.full none_
      omega
  · have known : key ∈ (w.queue.min ++ w.queue.max).map Elem.key := by
      rw [List.map_append]
      exact List.mem_append_left _ member
    exact List.mem_map.mp (placed.keys.mem_iff.mp known)

/-- **Top k.** In every run of insertions of new keys and updates of inserted ones, `read_topK` answers with as
many of the inserted keys as it can, and with the best, as long as no more than `k` keys are in; and beyond
that if no heap gets a fifth element, no priority wraps, and no transaction is left open after a move. -/
theorem readTopK_best {undoLog : Bool} {k : Nat} {w : Count}
    (run : Path (Count.step undoLog k) Allowed .empty w)
    (fine : w.tally.length ≤ k ∨
      Path (Count.step undoLog k) (fun w op => Allowed w op ∧ Fine undoLog k w op) .empty w) : w.Best k := by
  rcases fine with bound | fine
  · obtain ⟨placed, none_⟩ := Few.run run bound
    refine placed.best fun e _ f inF _ rest => absurd ?_ rest
    have known := placed.keys.mem_iff.mpr (List.mem_map_of_mem inF)
    rwa [none_, List.append_nil] at known
  · have good := Good.run fine
    refine good.placed.best fun e inE f inF best rest => ?_
    obtain ⟨e', member, same⟩ := List.mem_map.mp best
    have here : e' = e := good.eq_of_key (good.perm.mem_iff.mp (List.mem_append_left _ member)) inE same
    rw [here] at member
    have away : f ∈ w.queue.max := by
      refine (List.mem_append.mp (good.perm.mem_iff.mpr inF)).resolve_left fun home => ?_
      exact rest (List.mem_map_of_mem home)
    have cut := good.halved.cut e member f away
    omega

/-- Two insertions, an increase and a decrease that trade roots, with an undo log. -/
theorem readTopK_best_trades : ∃ w : Count,
    w.tally = [⟨1, 9⟩, ⟨2, 2⟩, ⟨3, 6⟩, ⟨4, 1⟩] ∧ w.queue.readTopK = [3, 1] ∧
    ∀ e ∈ w.tally, ∀ f ∈ w.tally, e.key ∈ w.queue.readTopK → f.key ∉ w.queue.readTopK →
      f.priority ≤ e.priority := by
  have ran : ∃ w ∈ exec (Count.step true 2) (fun w op => Allowed w op ∧ Fine true 2 w op) .empty
      [.insert 1 5, .insert 2 7, .insert 3 6, .insert 4 1, .increase 1 4, .decrease 2 5],
      w.tally = [⟨1, 9⟩, ⟨2, 2⟩, ⟨3, 6⟩, ⟨4, 1⟩] ∧ w.queue.readTopK = [3, 1] := by
    decide +kernel
  obtain ⟨w, run, tally, top⟩ := Path.exists_of_exec ran
  exact ⟨w, tally, top, (readTopK_best (run.mono fun _ _ ok => ok.1) (.inr run)).2.2.2⟩

/-- A run after which an element is answered and a better one is not. -/
def MissesBetter (undoLog : Bool) (k : Nat) : Prop :=
  ∃ w : Count, Path (Count.step undoLog k) Allowed .empty w ∧
    ∃ e ∈ w.tally, ∃ f ∈ w.tally, e.key ∈ w.queue.readTopK ∧ f.key ∉ w.queue.readTopK ∧
      e.priority < f.priority

/-- With five elements in the min-heap an insertion is compared with a cousin; after three more
the root is not the least, and a better element is turned away. -/
theorem readTopK_best_fails : MissesBetter false 5 ∧ MissesBetter true 5 := by
  have ran : ∀ undoLog : Bool, ∃ w ∈ exec (Count.step undoLog 5) Allowed .empty
      [.insert 1 0, .insert 2 1, .insert 3 2, .insert 4 6, .increase 2 4, .insert 5 3, .insert 6 10,
        .insert 7 11, .insert 8 4], ⟨5, 3⟩ ∈ w.tally ∧ ⟨8, 4⟩ ∈ w.tally ∧ 5 ∈ w.queue.readTopK ∧
        8 ∉ w.queue.readTopK := by
    decide +kernel
  have misses : ∀ undoLog, MissesBetter undoLog 5 := by
    intro undoLog
    obtain ⟨w, run, kept, refused, inside, outside⟩ := Path.exists_of_exec (ran undoLog)
    exact ⟨w, run, ⟨5, 3⟩, kept, ⟨8, 4⟩, refused, inside, outside, by decide⟩
  exact ⟨misses false, misses true⟩

end Cyclone.Pmemds
