/-
# Core.CircularLog — the persistent log next to raft's

Cyclone keeps two rings of packets.  `raft_log.c` has the volatile one: absolute ends `front` and
`back`, an array that doubles when it is full, and places taken modulo its size.
`circular_log.h` has the persistent one: a fixed array of `RAFT_LOGENTRIES` slots with wrapped
`head` and `tail`.  Raft's log operations drive the second through the callbacks of `cyclone.cpp`,
a batch publishing its new tail only at its end.

Both rings show one list of packets (`Mirror`), and every operation keeps that as long as
truncations stay above `front`.  That raft's truncations do is not a matter of the two
rings: it follows from the callbacks of a whole run of the server (`window_of_journal`).
-/
import Cyclone.Raft.Journal
import Cyclone.Theory.Ring

namespace Cyclone.Core

open Cyclone.Raft
open Cyclone.Theory

set_option autoImplicit false

/-! ## The persistent log -/

variable {P : Type}

/-- `struct circular_log` and the slots behind it. -/
structure CircularLog (P : Type) where
  head : Nat
  tail : Nat
  data : Nat → P

namespace CircularLog

/-- `log_offer`: the slot at `tail` is written, full or not; nothing when it reports full. -/
def logOffer (n : Nat) (log : CircularLog P) (ptr : P) (tail : Nat) :
    CircularLog P × Option Nat :=
  let log := { log with data := Function.update log.data tail ptr }
  let tail := if tail + 1 = n then 0 else tail + 1
  (log, if tail = log.head then none else some tail)

/-- `log_poll_batch`. -/
def logPollBatch (n : Nat) (log : CircularLog P) (cnt : Nat) : CircularLog P :=
  { log with head := if log.head + cnt ≥ n then log.head + cnt - n else log.head + cnt }

/-- `log_pop`. -/
def logPop (n : Nat) (log : CircularLog P) : CircularLog P :=
  { log with tail := if log.tail = 0 then n - 1 else log.tail - 1 }

/-- `log_persist`, less the flushes. -/
def logPersist (log : CircularLog P) (newTail : Nat) : CircularLog P := { log with tail := newTail }

/-- The loop of `__raft_logentry_offer_batch` over its packets, with its own `tail`; nothing when the
log is full and the process exits. -/
def offerLoop (n : Nat) : List P → CircularLog P → Nat → Option (CircularLog P × Nat)
  | [], log, tail => some (log, tail)
  | pkt :: pkts, log, tail =>
    match log.logOffer n pkt tail with
    | (_, none) => none
    | (log, some tail) => offerLoop n pkts log tail

/-- `__raft_logentry_offer_batch`: the tail is published once, behind the last packet. -/
def offerBatch (n : Nat) (pkts : List P) (log : CircularLog P) : Option (CircularLog P) :=
  (offerLoop n pkts log log.tail).map fun r => r.1.logPersist r.2

end CircularLog

/-! ## The volatile log -/

/-- `log_private_t`, each entry by its packet. -/
structure RaftRing (P : Type) where
  size : Nat
  count : Nat
  front : Nat
  back : Nat
  entries : Nat → P

namespace RaftRing

variable [Inhabited P]

/-- `log_new`; a cleared packet pointer is the default. -/
def logNew : RaftRing P :=
  { size := 10, count := 0, front := 0, back := 0, entries := fun _ => default }

/-- The copy into an array twice the size. -/
def double (r : RaftRing P) : RaftRing P :=
  { r with
    size := 2 * r.size
    entries := copyWindow r.entries r.size (2 * r.size) (r.back - r.front) r.front fun _ => default }

/-- `__ensurecapacity`. -/
def ensureCapacity (r : RaftRing P) : RaftRing P :=
  if r.count < r.size then r else r.double

/-- The loop of `__ensurecapacity_batch`; `fuel` bounds the doublings. -/
def growLoop (count : Nat) : Nat → RaftRing P → RaftRing P
  | 0, r => r
  | fuel + 1, r => if r.count + count > r.size then growLoop count fuel r.double else r

/-- `__ensurecapacity_batch`. -/
def ensureCapacityBatch (r : RaftRing P) (count : Nat) : RaftRing P :=
  growLoop count (r.count + count) r

/-- `log_append_entry` behind its callback. -/
def write (r : RaftRing P) (pkt : P) : RaftRing P :=
  { r with
    entries := Function.update r.entries (r.back % r.size) pkt
    count := r.count + 1
    back := r.back + 1 }

/-- `log_append_batch` behind its callback: one copy, or two at the end of the array. -/
def writeBatch (r : RaftRing P) (pkts : List P) : RaftRing P :=
  { r with
    entries := blitRing r.entries r.size r.back pkts
    count := r.count + pkts.length
    back := r.back + pkts.length }

end RaftRing

/-! ## The operations on both -/

/-- The log callbacks, by position. -/
inductive LogCall where
  | offer (idx : Int)
  | pop (idx : Int)
  | poll (idx : Int) (cnt : Nat)
deriving DecidableEq, Repr

/-- The two logs of a replica. -/
structure Logs (P : Type) where
  raft : RaftRing P
  circ : CircularLog P

/-- The log operations of `raft_server.c`, an append with the packets of its entries.  A batch
has a first entry. -/
inductive LogOp (P : Type) where
  | appendEntry (pkt : P)
  | appendBatch (pkt : P) (pkts : List P)
  | delete (idx : Nat)
  | pollBatch (cnt : Nat)

/-- The calls of a batch of `count` offers. -/
def offersFrom (idx : Int) : Nat → List LogCall
  | 0 => []
  | count + 1 => .offer idx :: offersFrom (idx + 1) count

namespace Logs

variable [Inhabited P]

/-- `log_append_entry`. -/
def logAppendEntry (n : Nat) (w : Logs P) (pkt : P) : Option (Logs P × List LogCall) :=
  let raft := w.raft.ensureCapacity
  (w.circ.offerBatch n [pkt]).map fun circ => (⟨raft.write pkt, circ⟩, [.offer raft.back])

/-- `log_append_batch`. -/
def logAppendBatch (n : Nat) (w : Logs P) (pkts : List P) : Option (Logs P × List LogCall) :=
  let raft := w.raft.ensureCapacityBatch pkts.length
  (w.circ.offerBatch n pkts).map fun circ =>
    (⟨raft.writeBatch pkts, circ⟩, offersFrom raft.back pkts.length)

/-- The loop of `log_delete`, so many turns. -/
def deleteLoop (n : Nat) : Nat → Logs P → Logs P × List LogCall
  | 0, w => (w, [])
  | turns + 1, w =>
    let back := w.raft.back - 1
    let rest := deleteLoop n turns
      ⟨{ w.raft with back := back, count := w.raft.count - 1 }, w.circ.logPop n⟩
    (rest.1, .pop back :: rest.2)

/-- `log_delete`: pops until `back` is `idx - 1`; past `back` its loop would not end. -/
def logDelete (n : Nat) (w : Logs P) (idx : Nat) : Option (Logs P × List LogCall) :=
  if 1 ≤ idx ∧ idx - 1 ≤ w.raft.back then some (deleteLoop n (w.raft.back - (idx - 1)) w) else none

/-- `log_poll_batch`: one callback, or two when the range crosses the end of raft's array.  It is not
called with nothing to release. -/
def logPollBatch (n : Nat) (w : Logs P) (cnt : Nat) : Option (Logs P × List LogCall) :=
  let cnt := if cnt > w.raft.count then w.raft.count else cnt
  let raft := { w.raft with front := w.raft.front + cnt, count := w.raft.count - cnt }
  if cnt = 0 then none
  else if (w.raft.front + cnt - 1) % w.raft.size ≥ w.raft.front % w.raft.size then
    some (⟨raft, w.circ.logPollBatch n cnt⟩, [.poll w.raft.front cnt])
  else
    let part1 := w.raft.size - w.raft.front % w.raft.size
    some (⟨raft, (w.circ.logPollBatch n part1).logPollBatch n (cnt - part1)⟩,
      [.poll w.raft.front part1, .poll (w.raft.front + part1 : Nat) (cnt - part1)])

def exec (n : Nat) (w : Logs P) : LogOp P → Option (Logs P × List LogCall)
  | .appendEntry pkt => w.logAppendEntry n pkt
  | .appendBatch pkt pkts => w.logAppendBatch n (pkt :: pkts)
  | .delete idx => w.logDelete n idx
  | .pollBatch cnt => w.logPollBatch n cnt

/-- A sequence of operations, with the callbacks it made. -/
def run (n : Nat) : List (LogOp P) → Logs P → Option (Logs P × List LogCall)
  | [], w => some (w, [])
  | op :: ops, w => do
      let (w', calls) ← w.exec n op
      let (w'', later) ← run n ops w'
      return (w'', calls ++ later)

/-- Both logs empty; the slots of the persistent one hold whatever they held. -/
def boot (junk : Nat → P) : Logs P := ⟨.logNew, ⟨0, 0, junk⟩⟩

/-- The ends of raft's log. -/
def ends (w : Logs P) : Nat × Nat := (w.raft.front, w.raft.back)

end Logs

/-! ## The window -/

/-- What a callback does to `front` and `back`; nothing when it does not fit them. -/
def Window.step : Nat × Nat → LogCall → Option (Nat × Nat)
  | (front, back), .offer idx => if idx = back then some (front, back + 1) else none
  | (front, back), .pop idx =>
    if idx + 1 = back ∧ (front : Int) ≤ idx then some (front, back - 1) else none
  | (front, back), .poll idx cnt =>
    if idx = front ∧ front + cnt ≤ back then some (front + cnt, back) else none

def Window.run (w : Nat × Nat) (calls : List LogCall) : Option (Nat × Nat) :=
  calls.foldlM Window.step w

/-- The log callbacks among those of a server.  `log_poll` only frees a packet. -/
def logCalls {ι α : Type} (calls : List (Callback ι α)) : List LogCall :=
  calls.filterMap fun
    | .logOffer _ idx => some (.offer idx)
    | .logPop _ idx => some (.pop idx)
    | .logPollBatch etys idx => some (.poll idx etys.length)
    | _ => none

theorem Window.run_append (w : Nat × Nat) (calls later : List LogCall) :
    Window.run w (calls ++ later) = (Window.run w calls).bind fun w => Window.run w later :=
  List.foldlM_append

/-- The callbacks of a server move a window: nothing released is popped, and nothing is released
that is not in the log. -/
theorem window_of_journal {ι α : Type} {j k : Journal ι α} {cs : List (Callback ι α)}
    (told : Journal.Run j cs k) (released : j.front ≤ j.applied)
    (inside : j.applied ≤ j.entries.length) :
    Window.run (j.front, j.entries.length) (logCalls cs) = some (k.front, k.entries.length) ∧
      k.front ≤ k.applied ∧ k.applied ≤ k.entries.length := by
  induction told with
  | nil => exact ⟨rfl, released, inside⟩
  | @snoc k l cs c run step ih =>
    obtain ⟨window, low, high⟩ := ih
    rw [logCalls, List.filterMap_append, ← logCalls, Window.run_append, window]
    cases step with
    | offer _ ety idx place =>
      refine ⟨?_, low, by simp only [List.length_append]; omega⟩
      simp [Window.run, Window.step, place]
    | pop kept ety front applied idx place unapplied =>
      refine ⟨?_, low, unapplied⟩
      simp only at low
      have above : front ≤ kept.length := low.trans unapplied
      simp [Window.run, Window.step, place, above]
    | apply _ ety idx place next =>
      obtain ⟨below, -⟩ := List.getElem?_eq_some_iff.mp next
      exact ⟨rfl, Nat.le_succ_of_le low, below⟩
    | poll _ etys idx place oldest done =>
      have fits : k.front + etys.length ≤ k.entries.length := done.trans high
      refine ⟨?_, done, high⟩
      simp [Window.run, Window.step, place, fits]
    | outward _ outward =>
      have silent : logCalls [c] = [] := by cases c <;> first | rfl | cases outward
      rw [← logCalls, silent]
      exact ⟨rfl, low, high⟩
    | free => exact ⟨rfl, low, high⟩

/-! ## One list in two rings -/

/-- The persistent log holds the list, with the tail of a batch under way at `tail`. -/
structure CircularLog.Holds (n : Nat) (log : CircularLog P) (tail : Nat) (live : List P) : Prop where
  slots : Shows log.data n log.head live
  head_lt : log.head < n
  tail_eq : tail = (log.head + live.length) % n
  room : live.length < n

/-- The volatile log holds the list. -/
structure RaftRing.Holds (r : RaftRing P) (live : List P) : Prop where
  cells : Shows r.entries r.size r.front live
  size_pos : 0 < r.size
  count_eq : r.count = live.length
  back_eq : r.back = r.front + live.length

/-- Both logs hold the same packets. -/
structure Mirror (n : Nat) (w : Logs P) (live : List P) : Prop where
  raft : w.raft.Holds live
  circ : w.circ.Holds n w.circ.tail live

namespace CircularLog.Holds

variable {n tail : Nat} {log : CircularLog P} {live : List P}

/-- The next tail meets the head when the last free slot was taken. -/
theorem logOffer_eq (holds : log.Holds n tail live) (ptr : P) :
    (log.logOffer n ptr tail).2 =
      if live.length + 1 = n then none else some ((log.head + (live.length + 1)) % n) := by
  have room := holds.room
  have low := holds.head_lt
  have next : (if tail + 1 = n then 0 else tail + 1) = (log.head + (live.length + 1)) % n := by
    have below : tail < n := by rw [holds.tail_eq]; exact Nat.mod_lt _ (by omega)
    rw [← Nat.add_assoc, ← Nat.mod_add_mod, ← holds.tail_eq]
    split
    · rename_i wraps
      rw [wraps, Nat.mod_self]
    · exact (Nat.mod_eq_of_lt (by omega)).symm
  have met : (log.head + (live.length + 1)) % n = log.head ↔ live.length + 1 = n := by
    constructor
    · intro same
      by_contra free
      have here : (log.head + (live.length + 1)) % n = (log.head + 0) % n := by
        rw [same, Nat.add_zero, Nat.mod_eq_of_lt low]
      have zero := place_inj (show live.length + 1 < n by omega) (by omega) here
      omega
    · intro full
      rw [full, Nat.add_mod_right, Nat.mod_eq_of_lt low]
  simp only [logOffer, next, met]

theorem logOffer_full (holds : log.Holds n tail live) (ptr : P) :
    (log.logOffer n ptr tail).2 = none ↔ live.length = n - 1 := by
  have room := holds.room
  rw [holds.logOffer_eq ptr]
  split <;> simp <;> omega

variable {tail' : Nat}

theorem logOffer (holds : log.Holds n tail live) (ptr : P)
    (offered : (log.logOffer n ptr tail).2 = some tail') :
    (log.logOffer n ptr tail).1.Holds n tail' (live ++ [ptr]) := by
  rw [holds.logOffer_eq ptr] at offered
  split at offered
  · cases offered
  · cases offered
    have room := holds.room
    refine ⟨?_, holds.head_lt, ?_, by rw [List.length_append, List.length_singleton]; omega⟩
    · change Shows (Function.update log.data tail ptr) n log.head (live ++ [ptr])
      rw [holds.tail_eq]
      exact holds.slots.push ptr holds.room
    · rw [List.length_append]
      rfl

variable {pkts : List P} {log' : CircularLog P}

/-- The loop of a batch: what it wrote stands behind the list. -/
theorem offerLoop (holds : log.Holds n tail live)
    (looped : offerLoop n pkts log tail = some (log', tail')) :
    log'.Holds n tail' (live ++ pkts) := by
  induction pkts generalizing log tail live with
  | nil =>
    cases looped
    rwa [List.append_nil]
  | cons pkt pkts ih =>
    rw [CircularLog.offerLoop] at looped
    split at looped
    · cases looped
    · rename_i offered
      have one := holds.logOffer pkt (congrArg Prod.snd offered)
      rw [offered] at one
      have all := ih one looped
      rwa [List.append_assoc] at all

theorem offerBatch (holds : log.Holds n log.tail live)
    (offered : log.offerBatch n pkts = some log') : log'.Holds n log'.tail (live ++ pkts) := by
  obtain ⟨⟨log₁, tail₁⟩, looped, rfl⟩ := Option.map_eq_some_iff.mp offered
  have loop := holds.offerLoop looped
  exact ⟨loop.slots, loop.head_lt, loop.tail_eq, loop.room⟩

/-- The newest packet is given up. -/
theorem logPop {pkt : P} (holds : log.Holds n log.tail (live ++ [pkt])) :
    (log.logPop n).Holds n (log.logPop n).tail live := by
  have room := holds.room
  rw [List.length_append, List.length_singleton] at room
  have low : (log.head + live.length) % n < n := Nat.mod_lt _ (by omega)
  have tail := holds.tail_eq
  rw [List.length_append, List.length_singleton, ← Nat.add_assoc, ← Nat.mod_add_mod] at tail
  refine ⟨holds.slots.starts (List.prefix_append _ _), holds.head_lt, ?_, by omega⟩
  change (if log.tail = 0 then n - 1 else log.tail - 1) = (log.head + live.length) % n
  rcases Nat.lt_or_ge ((log.head + live.length) % n + 1) n with lap | lap
  · rw [Nat.mod_eq_of_lt lap] at tail
    rw [if_neg (by omega)]
    omega
  · rw [show (log.head + live.length) % n + 1 = n by omega, Nat.mod_self] at tail
    rw [if_pos tail]
    omega

/-- The oldest packets are given up. -/
theorem logPollBatch (holds : log.Holds n log.tail live) {cnt : Nat} (fits : cnt ≤ live.length) :
    (log.logPollBatch n cnt).Holds n (log.logPollBatch n cnt).tail (live.drop cnt) := by
  have room := holds.room
  have low := holds.head_lt
  have moved : (if log.head + cnt ≥ n then log.head + cnt - n else log.head + cnt) % n =
      (log.head + cnt) % n := by
    split
    · rw [← Nat.mod_eq_sub_mod (by omega)]
    · rfl
  refine ⟨(holds.slots.drop cnt).of_mod moved, ?_, ?_, by rw [List.length_drop]; omega⟩
  · change (if log.head + cnt ≥ n then log.head + cnt - n else log.head + cnt) < n
    split <;> omega
  · change log.tail = ((if log.head + cnt ≥ n then _ else _) + (live.drop cnt).length) % n
    rw [← Nat.mod_add_mod, moved, Nat.mod_add_mod, List.length_drop, holds.tail_eq]
    congr 1
    omega

end CircularLog.Holds

namespace RaftRing.Holds

variable [Inhabited P] {r : RaftRing P} {live : List P}

set_option linter.unusedSectionVars false

theorem double (holds : r.Holds live) : r.double.Holds live := by
  have pos := holds.size_pos
  have window : r.back - r.front = live.length := by rw [holds.back_eq]; omega
  refine ⟨?_, ?_, holds.count_eq, holds.back_eq⟩
  · change Shows (copyWindow _ _ _ (r.back - r.front) _ _) (2 * r.size) r.front live
    rw [window]
    exact holds.cells.grow (by omega)
  · change 0 < 2 * r.size
    omega

theorem ensureCapacity (holds : r.Holds live) :
    r.ensureCapacity.Holds live ∧ r.ensureCapacity.front = r.front ∧
      live.length < r.ensureCapacity.size := by
  have pos := holds.size_pos
  have fits := holds.cells.1
  unfold RaftRing.ensureCapacity
  split
  · rename_i free
    exact ⟨holds, rfl, by rw [← holds.count_eq]; exact free⟩
  · exact ⟨holds.double, rfl, show live.length < 2 * r.size by omega⟩

/-- The doublings end with room for the batch: each adds at least one place. -/
theorem growLoop (count fuel : Nat) (holds : r.Holds live)
    (enough : live.length + count ≤ r.size + fuel) :
    (growLoop count fuel r).Holds live ∧ (growLoop count fuel r).front = r.front ∧
      live.length + count ≤ (growLoop count fuel r).size := by
  induction fuel generalizing r with
  | zero => exact ⟨holds, rfl, enough⟩
  | succ fuel ih =>
    rw [RaftRing.growLoop]
    split
    · have pos := holds.size_pos
      exact ih holds.double (show live.length + count ≤ 2 * r.size + fuel by omega)
    · rename_i fits
      rw [holds.count_eq] at fits
      exact ⟨holds, rfl, by omega⟩

theorem ensureCapacityBatch (holds : r.Holds live) (count : Nat) :
    (r.ensureCapacityBatch count).Holds live ∧ (r.ensureCapacityBatch count).front = r.front ∧
      live.length + count ≤ (r.ensureCapacityBatch count).size := by
  refine holds.growLoop count (r.count + count) ?_
  rw [holds.count_eq]
  omega

theorem write (holds : r.Holds live) (pkt : P) (room : live.length < r.size) :
    (r.write pkt).Holds (live ++ [pkt]) := by
  have back := holds.back_eq
  have count := holds.count_eq
  refine ⟨?_, holds.size_pos, ?_, ?_⟩
  · change Shows (Function.update r.entries (r.back % r.size) pkt) r.size r.front _
    rw [back]
    exact holds.cells.push pkt room
  · change r.count + 1 = _
    rw [List.length_append, count]
    rfl
  · change r.back + 1 = r.front + _
    rw [List.length_append, back]
    rfl

theorem writeBatch (holds : r.Holds live) {pkts : List P} (some_ : 0 < pkts.length)
    (room : live.length + pkts.length ≤ r.size) : (r.writeBatch pkts).Holds (live ++ pkts) := by
  have back := holds.back_eq
  have count := holds.count_eq
  refine ⟨?_, holds.size_pos, ?_, ?_⟩
  · change Shows (blitRing r.entries r.size r.back pkts) r.size r.front _
    rw [back]
    exact holds.cells.blit some_ room
  · change r.count + pkts.length = _
    rw [List.length_append, count]
  · change r.back + pkts.length = r.front + _
    rw [List.length_append, back, Nat.add_assoc]

/-- The newest packet is given up. -/
theorem pop {pkt : P} (holds : r.Holds (live ++ [pkt])) :
    { r with back := r.back - 1, count := r.count - 1 }.Holds live := by
  have back := holds.back_eq
  have count := holds.count_eq
  rw [List.length_append, List.length_singleton] at back count
  exact ⟨holds.cells.starts (List.prefix_append _ _), holds.size_pos, by simp only; omega,
    by simp only; omega⟩

/-- The oldest packets are given up. -/
theorem poll (holds : r.Holds live) {cnt : Nat} (fits : cnt ≤ live.length) :
    { r with front := r.front + cnt, count := r.count - cnt }.Holds (live.drop cnt) := by
  have back := holds.back_eq
  have count := holds.count_eq
  refine ⟨holds.cells.drop cnt, holds.size_pos, ?_, ?_⟩ <;> simp only [List.length_drop] <;> omega

end RaftRing.Holds

/-! ## The operations keep the mirror -/

namespace Mirror

variable [Inhabited P] {n : Nat} {w w' : Logs P} {live : List P} {calls : List LogCall}

theorem boot (pos : 0 < n) (junk : Nat → P) : Mirror n (Logs.boot junk) [] :=
  ⟨⟨.nil _ _ _, Nat.zero_lt_succ 9, rfl, rfl⟩, ⟨.nil _ _ _, pos, (Nat.zero_mod n).symm, pos⟩⟩

variable (mirror : Mirror n w live)
include mirror

theorem logAppendEntry {pkt : P} (done : w.logAppendEntry n pkt = some (w', calls)) :
    Mirror n w' (live ++ [pkt]) ∧ Window.run w.ends calls = some w'.ends := by
  obtain ⟨circ, offered, same⟩ := Option.map_eq_some_iff.mp done
  cases same
  obtain ⟨holds, front, room⟩ := mirror.raft.ensureCapacity
  have back : w.raft.ensureCapacity.back = w.raft.back := by
    rw [holds.back_eq, mirror.raft.back_eq, front]
  refine ⟨⟨holds.write pkt room, mirror.circ.offerBatch offered⟩, ?_⟩
  simp [Window.run, Window.step, Logs.ends, RaftRing.write, back, front]

omit mirror in
/-- A batch of offers moves the back by its length. -/
theorem run_offersFrom (front back count : Nat) :
    Window.run (front, back) (offersFrom back count) = some (front, back + count) := by
  induction count generalizing back with
  | zero => rfl
  | succ count ih =>
    have first : Window.step (front, back) (.offer back) = some (front, back + 1) := if_pos rfl
    have rest := ih (back + 1)
    rw [Window.run] at rest ⊢
    rw [offersFrom, List.foldlM_cons, first]
    push_cast at rest
    rw [show back + (count + 1) = back + 1 + count by omega]
    exact rest

theorem logAppendBatch {pkts : List P} (some_ : 0 < pkts.length)
    (done : w.logAppendBatch n pkts = some (w', calls)) :
    Mirror n w' (live ++ pkts) ∧ Window.run w.ends calls = some w'.ends := by
  obtain ⟨circ, offered, same⟩ := Option.map_eq_some_iff.mp done
  cases same
  obtain ⟨holds, front, room⟩ := mirror.raft.ensureCapacityBatch pkts.length
  have back : (w.raft.ensureCapacityBatch pkts.length).back = w.raft.back := by
    rw [holds.back_eq, mirror.raft.back_eq, front]
  refine ⟨⟨holds.writeBatch some_ room, mirror.circ.offerBatch offered⟩, ?_⟩
  simp only [Logs.ends, RaftRing.writeBatch, back, front]
  exact run_offersFrom _ _ _

variable {ends : Nat × Nat}

/-- A truncation, as far as the window allows it. -/
theorem deleteLoop (turns : Nat) (window : Window.run w.ends (Logs.deleteLoop n turns w).2 = some ends) :
    (∃ live', Mirror n (Logs.deleteLoop n turns w).1 live') ∧
      ends = (Logs.deleteLoop n turns w).1.ends := by
  induction turns generalizing w live with
  | zero =>
    cases window
    exact ⟨⟨live, mirror⟩, rfl⟩
  | succ turns ih =>
    rw [Logs.deleteLoop, Window.run, List.foldlM_cons] at window
    obtain ⟨e, first, rest⟩ := Option.bind_eq_some_iff.mp window
    rw [Logs.ends, Window.step] at first
    split at first
    · rename_i inside
      cases first
      -- the window is not empty, so the list has a newest packet
      have back := mirror.raft.back_eq
      rcases List.eq_nil_or_concat live with rfl | ⟨kept, pkt, rfl⟩
      · simp only [List.length_nil] at back
        omega
      · rw [List.concat_eq_append] at mirror
        exact ih ⟨mirror.raft.pop, mirror.circ.logPop⟩ rest
    · cases first

theorem logPollBatch {cnt : Nat} (done : w.logPollBatch n cnt = some (w', calls)) :
    (∃ live', Mirror n w' live') ∧ Window.run w.ends calls = some w'.ends := by
  have back := mirror.raft.back_eq
  have count := mirror.raft.count_eq
  have pos := mirror.raft.size_pos
  have short := mirror.raft.cells.1
  unfold Logs.logPollBatch at done
  generalize clamped : (if cnt > w.raft.count then w.raft.count else cnt) = m at done
  have fits : m ≤ live.length := by
    rw [← clamped, count]
    split <;> omega
  have below : w.raft.front % w.raft.size < w.raft.size := Nat.mod_lt _ pos
  simp only at done
  split at done
  · cases done
  · split at done
    · cases done
      refine ⟨⟨live.drop m, mirror.raft.poll fits, mirror.circ.logPollBatch fits⟩, ?_⟩
      have inside : w.raft.front + m ≤ w.raft.back := by omega
      simp [Window.run, Window.step, Logs.ends, inside]
    · rename_i some_ wraps
      -- the range crosses the end of raft's array, so its first part is shorter than the range
      have last := @place_add w.raft.size w.raft.front (m - 1) (by omega)
      rw [show w.raft.front + (m - 1) = w.raft.front + m - 1 by omega] at last
      generalize part : w.raft.size - w.raft.front % w.raft.size = k at done
      have shorter : k ≤ m := by omega
      have first := mirror.circ.logPollBatch (show k ≤ live.length by omega)
      have second := first.logPollBatch
        (show m - k ≤ (live.drop k).length by rw [List.length_drop]; omega)
      rw [List.drop_drop, show k + (m - k) = m by omega] at second
      cases done
      refine ⟨⟨live.drop m, mirror.raft.poll fits, second⟩, ?_⟩
      have inside : w.raft.front + k ≤ w.raft.back := by omega
      have rest : w.raft.front + k + (m - k) ≤ w.raft.back := by omega
      have target : w.raft.front + k + (m - k) = w.raft.front + m := by omega
      rw [target] at rest
      simp [Window.run, Window.step, Logs.ends, inside, rest, target]

/-- One operation. -/
theorem exec {op : LogOp P} (done : w.exec n op = some (w', calls))
    (window : Window.run w.ends calls = some ends) :
    (∃ live', Mirror n w' live') ∧ ends = w'.ends := by
  cases op with
  | appendEntry pkt =>
    obtain ⟨kept, moved⟩ := mirror.logAppendEntry done
    exact ⟨⟨_, kept⟩, Option.some_inj.mp (window.symm.trans moved)⟩
  | appendBatch pkt pkts =>
    obtain ⟨kept, moved⟩ := mirror.logAppendBatch (List.length_pos_of_mem List.mem_cons_self) done
    exact ⟨⟨_, kept⟩, Option.some_inj.mp (window.symm.trans moved)⟩
  | delete idx =>
    simp only [Logs.exec, Logs.logDelete] at done
    split at done
    · obtain ⟨rfl, rfl⟩ := Prod.mk.inj (Option.some_inj.mp done.symm)
      exact mirror.deleteLoop _ window
    · cases done
  | pollBatch cnt =>
    obtain ⟨kept, moved⟩ := mirror.logPollBatch done
    exact ⟨kept, Option.some_inj.mp (window.symm.trans moved)⟩

/-- A sequence of operations whose callbacks move a window. -/
theorem run {ops : List (LogOp P)} (done : Logs.run n ops w = some (w', calls)) (window : Window.run w.ends calls = some ends) :
    ∃ live', Mirror n w' live' := by
  induction ops generalizing w live calls with
  | nil =>
    cases done
    exact ⟨live, mirror⟩
  | cons op ops ih =>
    obtain ⟨⟨w₁, first⟩, one, done⟩ := Option.bind_eq_some_iff.mp done
    obtain ⟨⟨w₂, later⟩, more, done⟩ := Option.bind_eq_some_iff.mp done
    cases done
    rw [Window.run_append] at window
    obtain ⟨ends₁, moved, window⟩ := Option.bind_eq_some_iff.mp window
    obtain ⟨⟨live₁, kept⟩, rfl⟩ := mirror.exec one moved
    exact ih kept more window

omit [Inhabited P] in
/-- What the mirror says, slot by slot. -/
theorem slots {i : Nat} (low : i < w.raft.back - w.raft.front) :
    w.circ.data ((w.circ.head + i) % n) = w.raft.entries ((w.raft.front + i) % w.raft.size) := by
  have bound : i < live.length := by rw [mirror.raft.back_eq] at low; omega
  have at_ := List.getElem?_eq_getElem bound
  rw [mirror.circ.slots.2 i _ at_, mirror.raft.cells.2 i _ at_]

omit [Inhabited P] in
theorem distance :
    ((w.circ.tail : Int) - w.circ.head) % n = (w.raft.back : Int) - w.raft.front := by
  have room := mirror.circ.room
  rw [mirror.circ.tail_eq, mirror.raft.back_eq, Int.natCast_emod, Int.emod_sub_emod]
  push_cast
  rw [add_sub_cancel_left, add_sub_cancel_left, Int.emod_eq_of_lt] <;> omega

end Mirror

/-! ## Runs of a replica -/

section Runs

variable {ι α : Type} [DecidableEq ι] [Inhabited P]

/-- **Lockstep.** Between any two log operations of a replica, the persistent log holds the packets of
raft's log in raft's order, and a batch under way is told that the log is full when all slots
but one are taken. -/
theorem logs_in_lockstep (me : ι) (replicas : Nat) (cfg : Config) (active : List ι)
    (target : 1 ≤ cfg.logTarget) {s : Server ι α}
    (run : Path Server.step anyStep (Server.boot me replicas cfg active) s)
    {n : Nat} (pos : 0 < n) (junk : Nat → P) {ops : List (LogOp P)} {w : Logs P}
    {calls : List LogCall} (done : Logs.run n ops (Logs.boot junk) = some (w, calls))
    (issued : calls <+: logCalls s.calls) :
    w.circ.head < n ∧ w.circ.tail < n ∧
    ((w.circ.tail : Int) - w.circ.head) % n = (w.raft.back : Int) - w.raft.front ∧
    (∀ i < w.raft.back - w.raft.front,
      w.circ.data ((w.circ.head + i) % n) = w.raft.entries ((w.raft.front + i) % w.raft.size)) ∧
    ∀ (pkts : List P) (log : CircularLog P) (tail : Nat) (ptr : P),
      CircularLog.offerLoop n pkts w.circ w.circ.tail = some (log, tail) →
      ((log.logOffer n ptr tail).2 = none ↔
        w.raft.back - w.raft.front + pkts.length = n - 1) := by
  obtain ⟨told, -⟩ := journal_run (boot_fresh me replicas active target) run
  obtain ⟨window, -⟩ := window_of_journal told (Nat.le_refl 0) (Nat.le_refl 0)
  obtain ⟨later, whole⟩ := issued
  rw [← whole, Window.run_append] at window
  obtain ⟨ends, moved, -⟩ := Option.bind_eq_some_iff.mp window
  obtain ⟨live, mirror⟩ := (Mirror.boot pos junk).run done moved
  refine ⟨mirror.circ.head_lt, ?_, mirror.distance, fun i low => mirror.slots low, ?_⟩
  · rw [mirror.circ.tail_eq]
    exact Nat.mod_lt _ pos
  · intro pkts log tail ptr looped
    rw [(mirror.circ.offerLoop looped).logOffer_full ptr, List.length_append, mirror.raft.back_eq,
      Nat.add_sub_cancel_left]

/-- A follower that cuts an entry, releases one and fills its four slots: the tail has wrapped. -/
theorem logs_in_lockstep_full : ∃ (s : Server (Fin 2) Nat) (w : Logs Nat),
    Logs.run 4 [.appendBatch 11 [12, 13], .delete 3, .appendBatch 14 [], .pollBatch 1,
      .appendBatch 15 []] (Logs.boot fun _ => 0) = some (w, logCalls s.calls) ∧
    w.circ.head = 1 ∧ w.circ.tail = 0 ∧
    (∀ i < 3, w.circ.data ((1 + i) % 4) = w.raft.entries ((1 + i) % 10)) ∧
    (w.circ.logOffer 4 16 0).2 = none := by
  let env : Env Nat := { quietEnv 0 with checkpoint := some }
  let ety (term : Int) (data : Nat) : Entry (Fin 2) Nat :=
    { term := term, id := 0, type := .normal, data := data, head := ⟨0, 0⟩ }
  let ae (term prev prevTerm commit : Int) (es : List (Entry (Fin 2) Nat)) : Msg (Fin 2) Nat :=
    .appendentries ⟨term, prev, prevTerm, commit, es⟩
  let ops : List (LogOp Nat) :=
    [.appendBatch 11 [12, 13], .delete 3, .appendBatch 14 [], .pollBatch 1, .appendBatch 15 []]
  have ran : ∃ s ∈ exec Server.step anyStep (Server.boot (0 : Fin 2) 2 smallCfg [0, 1])
      [(env, .recv 1 (ae 1 0 0 0 [ety 1 5, ety 1 6, ety 1 7])),
        (env, .recv 1 (ae 2 2 1 3 [ety 2 8])), (env, .periodic 1), (env, .periodic 1),
        (env, .periodic 1), (env, .recv 1 (ae 2 3 2 3 [ety 2 9]))],
      logCalls s.calls = [.offer 0, .offer 1, .offer 2, .pop 2, .offer 2, .poll 0 1,
          .offer 3] := by
    decide +kernel
  obtain ⟨s, run, calls⟩ := Path.exists_of_exec ran
  obtain ⟨⟨w, made⟩, done, told⟩ : ∃ r, Logs.run 4 ops (Logs.boot fun _ => 0) = some r ∧
      r.2 = [.offer 0, .offer 1, .offer 2, .pop 2, .offer 2, .poll 0 1, .offer 3] ∧
      r.1.circ.head = 1 ∧ r.1.circ.tail = 0 ∧ r.1.raft.front = 1 ∧ r.1.raft.back = 4 ∧
      r.1.raft.size = 10 := ⟨_, rfl, by decide +kernel⟩
  obtain ⟨rfl, head, tail, front, back, size⟩ := told
  rw [← calls] at done
  obtain ⟨-, -, -, slots, full⟩ := logs_in_lockstep 0 2 smallCfg [0, 1] (by decide) run
    (show 0 < 4 by decide) (fun _ => 0) done (List.prefix_refl _)
  rw [head, front, back, size] at slots
  rw [front, back, tail] at full
  exact ⟨s, w, done, head, tail, slots, (full [] w.circ 0 16 rfl).mpr rfl⟩

end Runs

end Cyclone.Core
