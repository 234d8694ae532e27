/-
# Core.RingLog — raft's ring is an indexed list

`raft_log.c` keeps its entries in an array read modulo its size, under two absolute ends, and
doubles the array while the content wraps.  What its callers see is a list with an offset
(`IndexedList`): reads by 1-based index, a length, a last element, ranges cut at the physical end
of the array, and callbacks for what leaves either end.

`ring_refines_list` says so for every sequence of operations.  `Stands` relates the ring to
the log of `Raft.Log`, on which the server's handlers run: each operation there is the ring's.
-/
import Cyclone.Core.CircularLog

namespace Cyclone.Core

open Cyclone.Raft
open Cyclone.Theory

set_option autoImplicit false

variable {P : Type}

/-! ## The operations on the ring -/

/-- A call of `log_pop`, `log_poll` or `log_poll_batch`, with the entries its pointer shows and the
0-based index of the first. -/
inductive Removal (P : Type) where
  | logPop (ety : P) (idx : Nat)
  | logPoll (ety : P) (idx : Nat)
  | logPollBatch (etys : List P) (idx : Nat)
deriving DecidableEq, Repr

/-- The entries of a call, each with its index. -/
def Removal.items : Removal P → List (P × Nat)
  | .logPop ety idx => [(ety, idx)]
  | .logPoll ety idx => [(ety, idx)]
  | .logPollBatch etys idx => etys.zipIdx idx

namespace RaftRing

section Writers

variable [Inhabited P]

/-- `log_append_entry`; `c` as its callback leaves it. -/
def logAppendEntry (r : RaftRing P) (c : P) : RaftRing P := r.ensureCapacity.write c

/-- `log_append_batch`. -/
def logAppendBatch (r : RaftRing P) (cs : List P) : RaftRing P :=
  (r.ensureCapacityBatch cs.length).writeBatch cs

end Writers

/-- The loop of `log_delete`, a number of turns. -/
def deleteLoop : Nat → RaftRing P → RaftRing P × List (Removal P)
  | 0, r => (r, [])
  | turns + 1, r =>
    let back := r.back - 1
    let rest := deleteLoop turns { r with back := back, count := r.count - 1 }
    (rest.1, .logPop (r.entries (back % r.size)) back :: rest.2)

/-- `log_delete`: turns until `back` is `idx - 1`. -/
def logDelete (r : RaftRing P) (idx : Nat) : RaftRing P × List (Removal P) :=
  deleteLoop (r.back - (idx - 1)) r

/-- `log_poll`. -/
def logPoll (r : RaftRing P) : RaftRing P × List (Removal P) :=
  if r.count = 0 then (r, [])
  else
    ({ r with front := r.front + 1, count := r.count - 1 },
      [.logPoll (r.entries (r.front % r.size)) r.front])

/-- `log_poll_batch`: one call, or two when the range crosses the end of the array. -/
def logPollBatch (r : RaftRing P) (cnt : Nat) : RaftRing P × List (Removal P) :=
  let cnt := if cnt > r.count then r.count else cnt
  let calls :=
    if (r.front + cnt - 1) % r.size ≥ r.front % r.size then
      [Removal.logPollBatch (readBlock r.entries (r.front % r.size) cnt) r.front]
    else
      let part1 := r.size - r.front % r.size
      [.logPollBatch (readBlock r.entries (r.front % r.size) part1) r.front,
        .logPollBatch (readBlock r.entries 0 (cnt - part1)) (r.front + part1)]
  ({ r with front := r.front + cnt, count := r.count - cnt }, calls)

/-- `log_get_at_idx`. -/
def logGetAtIdx (r : RaftRing P) (idx : Int) : Option P :=
  if idx = 0 then none
  else if (r.front : Int) > idx - 1 ∨ idx - 1 ≥ r.back then none
  else some (r.entries ((idx - 1).toNat % r.size))

/-- `log_get_from_idx`: the place its pointer shows, and `n_etys`. -/
def logGetFromIdx (r : RaftRing P) (idx : Int) : Option (Nat × Nat) :=
  if idx = 0 then none
  else if (r.front : Int) > idx - 1 ∨ idx - 1 ≥ r.back then none
  else
    let i := (idx - 1).toNat % r.size
    let back := r.back % r.size
    some (i, if i < back then back - i else r.size - i)

/-- `log_count`. -/
def logCount (r : RaftRing P) : Nat := r.count

/-- `log_peektail`. -/
def logPeektail (r : RaftRing P) : Option P :=
  if r.logCount = 0 then none else some (r.entries ((r.back - 1) % r.size))

end RaftRing

/-- The operations that change the log. -/
inductive RingOp (P : Type) where
  | appendEntry (c : P)
  | appendBatch (cs : List P)
  | delete (idx : Nat)
  | poll
  | pollBatch (cnt : Nat)

/-- One operation, with the callbacks it makes for what it removes. -/
def RaftRing.exec [Inhabited P] (r : RaftRing P) : RingOp P → RaftRing P × List (Removal P)
  | .appendEntry c => (r.logAppendEntry c, [])
  | .appendBatch cs => (r.logAppendBatch cs, [])
  | .delete idx => r.logDelete idx
  | .poll => r.logPoll
  | .pollBatch cnt => r.logPollBatch cnt

def RaftRing.execAll [Inhabited P] (r : RaftRing P) : List (RingOp P) → RaftRing P × List (Removal P)
  | [] => (r, [])
  | op :: ops =>
    let one := r.exec op
    let rest := one.1.execAll ops
    (rest.1, one.2 ++ rest.2)

/-! ## Indexed lists -/

/-- A list of entries, the first of them with the 0-based index `offset`. -/
structure IndexedList (P : Type) where
  offset : Nat
  entries : List P

namespace IndexedList

def new : IndexedList P := ⟨0, []⟩

/-- The index behind the last entry. -/
def back (a : IndexedList P) : Nat := a.offset + a.entries.length

/-- The entry with 1-based index `idx`. -/
def at? (a : IndexedList P) (idx : Int) : Option P :=
  if (a.offset : Int) < idx ∧ idx ≤ a.back then a.entries[(idx - 1).toNat - a.offset]? else none

/-- The oldest `cnt` entries leave. -/
def release (a : IndexedList P) (cnt : Nat) : IndexedList P × List (P × Nat) :=
  (⟨a.offset + cnt, a.entries.drop cnt⟩, (a.entries.take cnt).zipIdx a.offset)

/-- One operation, with what it removes in the order of removal. -/
def exec (a : IndexedList P) : RingOp P → IndexedList P × List (P × Nat)
  | .appendEntry c => (⟨a.offset, a.entries ++ [c]⟩, [])
  | .appendBatch cs => (⟨a.offset, a.entries ++ cs⟩, [])
  | .delete idx =>
    let kept := idx - 1 - a.offset
    (⟨a.offset, a.entries.take kept⟩, ((a.entries.drop kept).zipIdx (a.offset + kept)).reverse)
  | .poll => a.release (min 1 a.entries.length)
  | .pollBatch cnt => a.release (min cnt a.entries.length)

def execAll (a : IndexedList P) : List (RingOp P) → IndexedList P × List (P × Nat)
  | [] => (a, [])
  | op :: ops =>
    let one := a.exec op
    let rest := one.1.execAll ops
    (rest.1, one.2 ++ rest.2)

/-- The calls the library makes: a batch has an entry, a truncation stays above the front, and a batch
is polled from a log with entries. -/
def Admits (a : IndexedList P) : RingOp P → Prop
  | .appendEntry _ => True
  | .appendBatch cs => 1 ≤ cs.length
  | .delete idx => a.offset < idx ∧ idx ≤ a.back + 1
  | .poll => True
  | .pollBatch cnt => 1 ≤ cnt ∧ a.entries ≠ []

/-- A sequence of such calls. -/
def AdmitsAll (a : IndexedList P) : List (RingOp P) → Prop
  | [] => True
  | op :: ops => a.Admits op ∧ (a.exec op).1.AdmitsAll ops

end IndexedList

/-! ## What the ring shows -/

namespace RaftRing.Holds

variable [Inhabited P] {r : RaftRing P} {live : List P}

set_option linter.unusedSectionVars false

/-- The newest entry. -/
theorem newest {x : P} (holds : r.Holds (live ++ [x])) : r.entries ((r.back - 1) % r.size) = x := by
  have back := holds.back_eq
  rw [List.length_append, List.length_singleton] at back
  rw [show r.back - 1 = r.front + live.length by omega]
  exact holds.cells.2 live.length x (by simp)

theorem logDelete_loop (turns : Nat) (holds : r.Holds live) (short : turns ≤ live.length) :
    (deleteLoop turns r).1.Holds (live.take (live.length - turns)) ∧
      (deleteLoop turns r).1.front = r.front ∧
      (deleteLoop turns r).2.flatMap Removal.items =
        ((live.drop (live.length - turns)).zipIdx (r.front + (live.length - turns))).reverse := by
  induction turns generalizing r live with
  | zero => simpa [deleteLoop] using holds
  | succ turns ih =>
    rcases List.eq_nil_or_concat live with rfl | ⟨rest, x, rfl⟩
    · simp at short
    · rw [List.concat_eq_append] at holds short ⊢
      rw [List.length_append, List.length_singleton] at short ⊢
      obtain ⟨holds', front, calls⟩ := ih holds.pop (by omega)
      have cut : rest.length + 1 - (turns + 1) = rest.length - turns := by omega
      have back := holds.back_eq
      rw [List.length_append, List.length_singleton] at back
      rw [deleteLoop, cut, List.take_append_of_le_length (by omega),
        List.drop_append_of_le_length (by omega)]
      refine ⟨holds', front, ?_⟩
      simp only [List.flatMap_cons, calls, holds.newest, Removal.items, List.zipIdx_append,
        List.reverse_append, List.length_drop, List.zipIdx_cons, List.zipIdx_nil,
        List.reverse_singleton, List.singleton_append, List.cons.injEq, Prod.mk.injEq, true_and,
        and_true]
      omega

/-- Both pieces of a polled range, read back to back. -/
theorem polled (holds : r.Holds live) {cnt : Nat} (pos : 1 ≤ cnt) (fits : cnt ≤ live.length) :
    (r.logPollBatch cnt).2.flatMap Removal.items = (live.take cnt).zipIdx r.front := by
  have room := holds.cells.1
  have below : r.front % r.size < r.size := Nat.mod_lt _ holds.size_pos
  have last := @place_add r.size r.front (cnt - 1) (by omega)
  rw [show r.front + (cnt - 1) = r.front + cnt - 1 by omega] at last
  unfold RaftRing.logPollBatch
  simp only [if_neg (show ¬ cnt > r.count by rw [holds.count_eq]; omega)]
  split
  · have block := holds.cells.readBlock (k := 0) (n := cnt) (by omega)
      (by rw [Nat.add_zero]; omega)
    rw [Nat.add_zero, List.drop_zero] at block
    simp [Removal.items, block]
  · have first := holds.cells.readBlock (k := 0) (n := r.size - r.front % r.size) (by omega)
      (by rw [Nat.add_zero]; omega)
    have turn : (r.front + (r.size - r.front % r.size)) % r.size = 0 := by
      have whole := Nat.mod_add_div r.front r.size
      rw [show r.front + (r.size - r.front % r.size) = r.size + r.size * (r.front / r.size) by omega]
      simp
    have second := holds.cells.readBlock (k := r.size - r.front % r.size)
      (n := cnt - (r.size - r.front % r.size)) (by omega) (by rw [turn]; omega)
    rw [Nat.add_zero, List.drop_zero] at first
    rw [turn] at second
    simp only [List.flatMap_cons, List.flatMap_nil, List.append_nil, Removal.items, first, second]
    have whole : live.take cnt = live.take (r.size - r.front % r.size) ++
        (live.drop (r.size - r.front % r.size)).take (cnt - (r.size - r.front % r.size)) := by
      rw [← List.take_add]
      congr 1
      omega
    rw [whole, List.zipIdx_append, List.length_take_of_le (by omega)]

/-- Every cell of the window is read at its index. -/
theorem logGetAtIdx (holds : r.Holds live) (idx : Int) :
    r.logGetAtIdx idx = IndexedList.at? ⟨r.front, live⟩ idx := by
  have back := holds.back_eq
  unfold RaftRing.logGetAtIdx IndexedList.at? IndexedList.back
  by_cases inside : (r.front : Int) < idx ∧ idx ≤ ((r.front + live.length : Nat) : Int)
  · rw [if_neg (by omega), if_neg (by omega), if_pos inside]
    have bound : (idx - 1).toNat - r.front < live.length := by omega
    have at_ := List.getElem?_eq_getElem bound
    rw [at_, ← holds.cells.2 _ _ at_]
    congr 3
    omega
  · rw [if_neg inside]
    split
    · rfl
    · rw [if_pos (by omega)]

theorem logPeektail (holds : r.Holds live) : r.logPeektail = live.getLast? := by
  unfold RaftRing.logPeektail RaftRing.logCount
  rcases List.eq_nil_or_concat live with rfl | ⟨rest, x, rfl⟩
  · rw [if_pos (show r.count = 0 from holds.count_eq)]
    rfl
  · rw [List.concat_eq_append] at holds ⊢
    have count := holds.count_eq
    rw [List.length_append, List.length_singleton] at count
    rw [if_neg (by omega), holds.newest, List.getLast?_concat]

/-- A range read: a block of the list, up to its end or to the end of the array. -/
theorem logGetFromIdx (holds : r.Holds live) {idx : Int} (low : (r.front : Int) < idx)
    (high : idx ≤ r.back) :
    ∃ place n, r.logGetFromIdx idx = some (place, n) ∧ 1 ≤ n ∧
      (idx - 1 + n = r.back ∨ idx - 1 + n < r.back ∧ place + n = r.size) ∧
      readBlock r.entries place n = (live.drop ((idx - 1).toNat - r.front)).take n := by
  have back := holds.back_eq
  have room := holds.cells.1
  have pos := holds.size_pos
  obtain ⟨k, where_⟩ : ∃ k, (idx - 1).toNat = r.front + k := ⟨(idx - 1).toNat - r.front, by omega⟩
  have below : (r.front + k) % r.size < r.size := Nat.mod_lt _ pos
  -- from the index to the end of the list there is at most one lap
  have wraps : (r.front + k) % r.size + (live.length - k) < r.size ∧
        r.back % r.size = (r.front + k) % r.size + (live.length - k) ∨
      r.size ≤ (r.front + k) % r.size + (live.length - k) ∧
        r.back % r.size = (r.front + k) % r.size + (live.length - k) - r.size := by
    have ends : r.back = r.front + k + (live.length - k) := by omega
    by_cases lap : live.length - k < r.size
    · rw [ends]
      exact place_add lap
    · have whole : live.length - k = r.size := by omega
      rw [ends, whole, Nat.add_mod_right]
      omega
  unfold RaftRing.logGetFromIdx
  rw [if_neg (by omega), if_neg (by omega), where_]
  refine ⟨_, _, rfl, ?_, ?_, ?_⟩
  · split <;> omega
  · split <;> omega
  · rw [Nat.add_sub_cancel_left]
    refine holds.cells.readBlock ?_ ?_
    · split <;> omega
    · split <;> omega

end RaftRing.Holds

/-! ## Sequences of operations -/

section Runs

variable [Inhabited P] {r : RaftRing P} {a : IndexedList P}

/-- The ring shows the indexed list. -/
def Represents (r : RaftRing P) (a : IndexedList P) : Prop := r.front = a.offset ∧ r.Holds a.entries

omit [Inhabited P] in
theorem Represents.back (represents : Represents r a) : r.back = a.back := by
  rw [represents.2.back_eq, represents.1]
  rfl

theorem represents_new : Represents (RaftRing.logNew : RaftRing P) .new :=
  ⟨rfl, Shows.nil _ _ _, show 0 < 10 by decide, rfl, rfl⟩

/-- One operation keeps the relation and hands out what the list loses. -/
theorem Represents.exec (represents : Represents r a) {op : RingOp P} (admits : a.Admits op) :
    Represents (r.exec op).1 (a.exec op).1 ∧
      (r.exec op).2.flatMap Removal.items = (a.exec op).2 := by
  obtain ⟨front, holds⟩ := represents
  cases op with
  | appendEntry c =>
    obtain ⟨kept, same, room⟩ := holds.ensureCapacity
    exact ⟨⟨same.trans front, kept.write c room⟩, rfl⟩
  | appendBatch cs =>
    obtain ⟨kept, same, room⟩ := holds.ensureCapacityBatch cs.length
    exact ⟨⟨same.trans front, kept.writeBatch admits room⟩, rfl⟩
  | delete idx =>
    obtain ⟨low, high⟩ := admits
    have back := holds.back_eq
    rw [IndexedList.back] at high
    have turns : r.back - (idx - 1) = a.entries.length - (idx - 1 - a.offset) := by omega
    obtain ⟨kept, same, calls⟩ := holds.logDelete_loop (r.back - (idx - 1)) (by omega)
    rw [show a.entries.length - (r.back - (idx - 1)) = idx - 1 - a.offset by omega] at kept calls
    refine ⟨⟨same.trans front, kept⟩, ?_⟩
    rw [front] at calls
    exact calls
  | poll =>
    have count := holds.count_eq
    change Represents r.logPoll.1 (a.release _).1 ∧ r.logPoll.2.flatMap _ = (a.release _).2
    unfold RaftRing.logPoll
    cases live : a.entries with
    | nil =>
      rw [if_pos (by rw [count, live]; rfl)]
      exact ⟨⟨front, holds⟩, by simp [IndexedList.release, live]⟩
    | cons x rest =>
      have one : 1 ≤ a.entries.length := by rw [live]; simp
      have polled := holds.poll one
      have oldest := holds.cells.2 0 x (by rw [live]; rfl)
      rw [Nat.add_zero, front] at oldest
      rw [if_neg (by rw [count, live]; simp)]
      refine ⟨⟨by simp [IndexedList.release, front], ?_⟩, ?_⟩
      · simpa [IndexedList.release] using polled
      · simp [IndexedList.release, Removal.items, live, oldest, front]
  | pollBatch cnt =>
    obtain ⟨pos, some_⟩ := admits
    have count := holds.count_eq
    have length : 0 < a.entries.length := List.length_pos_iff.mpr some_
    -- a count beyond the log is cut to its length
    have cut : r.logPollBatch cnt = r.logPollBatch (min cnt a.entries.length) := by
      have same : (if cnt > r.count then r.count else cnt) =
          if min cnt a.entries.length > r.count then r.count else min cnt a.entries.length := by
        split <;> split <;> omega
      simp only [RaftRing.logPollBatch, same]
    have exact_ : (if min cnt a.entries.length > r.count then r.count
        else min cnt a.entries.length) = min cnt a.entries.length := if_neg (by omega)
    change Represents (r.logPollBatch cnt).1 (a.release _).1 ∧
      (r.logPollBatch cnt).2.flatMap _ = (a.release _).2
    rw [cut, holds.polled (by omega) (by omega), front]
    refine ⟨⟨?_, ?_⟩, rfl⟩
    · simp only [RaftRing.logPollBatch, IndexedList.release, exact_, front]
    · simp only [RaftRing.logPollBatch, IndexedList.release, exact_]
      exact holds.poll (by omega)

theorem Represents.execAll (represents : Represents r a) {ops : List (RingOp P)}
    (admits : a.AdmitsAll ops) :
    Represents (r.execAll ops).1 (a.execAll ops).1 ∧
      (r.execAll ops).2.flatMap Removal.items = (a.execAll ops).2 := by
  induction ops generalizing r a with
  | nil => exact ⟨represents, rfl⟩
  | cons op ops ih =>
    obtain ⟨one, calls⟩ := represents.exec admits.1
    obtain ⟨rest, later⟩ := ih one admits.2
    refine ⟨rest, ?_⟩
    simp only [RaftRing.execAll, IndexedList.execAll, List.flatMap_append, calls, later]

/-- **The ring is an indexed list.**  After every sequence of the library's operations on a new log, a
read by index finds the entry of the list at that index and nothing outside, the count and the tail
are the list's, a range read is a block of at least one entry that ends with the list or at the
physical end of the array, and the callbacks were handed the removed entries with their indices, in
order. -/
theorem ring_refines_list {ops : List (RingOp P)} (admits : IndexedList.new.AdmitsAll ops)
    {r : RaftRing P} {calls : List (Removal P)} {a : IndexedList P} {removed : List (P × Nat)}
    (ring : RaftRing.logNew.execAll ops = (r, calls))
    (list : IndexedList.new.execAll ops = (a, removed)) :
    (r.front = a.offset ∧ r.back = a.back) ∧
    (∀ idx, r.logGetAtIdx idx = a.at? idx) ∧ r.logCount = a.entries.length ∧
    r.logPeektail = a.entries.getLast? ∧
    (∀ idx : Int, ¬ (a.offset < idx ∧ idx ≤ a.back) → r.logGetFromIdx idx = none) ∧
    (∀ idx : Int, a.offset < idx → idx ≤ a.back →
      ∃ place n, r.logGetFromIdx idx = some (place, n) ∧ 1 ≤ n ∧
        (∀ k < n, some (r.entries (place + k)) = a.at? (idx + k)) ∧
        (idx + n = a.back + 1 ∨ idx + n < a.back + 1 ∧ place + n = r.size)) ∧
    calls.flatMap Removal.items = removed := by
  have related : Represents r a ∧ calls.flatMap Removal.items = removed := by
    have whole := represents_new.execAll admits
    rwa [ring, list] at whole
  obtain ⟨represents, handed⟩ := related
  have back := represents.back
  obtain ⟨front, holds⟩ := represents
  have reads : ∀ idx, r.logGetAtIdx idx = a.at? idx := by
    intro idx
    rw [holds.logGetAtIdx, front]
  refine ⟨⟨front, back⟩, reads, holds.count_eq, holds.logPeektail, fun idx outside => ?_, fun idx low high => ?_,
    handed⟩
  · unfold RaftRing.logGetFromIdx
    split
    · rfl
    · rw [if_pos (by omega)]
  · obtain ⟨place, n, range, some_, ends, block⟩ :=
      holds.logGetFromIdx (show (r.front : Int) < idx by omega) (by omega)
    refine ⟨place, n, range, some_, fun k inside => ?_, by omega⟩
    have cell : (readBlock r.entries place n)[k]? = some (r.entries (place + k)) := by
      rw [readBlock, List.getElem?_map, List.getElem?_range inside]
      rfl
    rw [← cell, block, List.getElem?_take_of_lt inside, List.getElem?_drop, IndexedList.at?,
      if_pos (by omega)]
    congr 1
    omega

/-- Twelve entries in an array of ten, the window crossing its end; then the newest is cut off and two
more are polled. -/
theorem ring_refines_list_wrapped : ∃ (r : RaftRing Nat) (calls : List (Removal Nat))
    (a : IndexedList Nat) (removed : List (Nat × Nat)),
    (r.front = 6 ∧ r.back = 11 ∧ r.size = 10 ∧ r.logGetFromIdx 8 = some (7, 3) ∧
      removed = [(0, 0), (1, 1), (2, 2), (3, 3), (11, 11), (4, 4), (5, 5)]) ∧
    (r.front = a.offset ∧ r.back = a.back) ∧
    (∀ idx, r.logGetAtIdx idx = a.at? idx) ∧ r.logCount = a.entries.length ∧
    r.logPeektail = a.entries.getLast? ∧
    (∀ idx : Int, ¬ (a.offset < idx ∧ idx ≤ a.back) → r.logGetFromIdx idx = none) ∧
    (∀ idx : Int, a.offset < idx → idx ≤ a.back →
      ∃ place n, r.logGetFromIdx idx = some (place, n) ∧ 1 ≤ n ∧
        (∀ k < n, some (r.entries (place + k)) = a.at? (idx + k)) ∧
        (idx + n = a.back + 1 ∨ idx + n < a.back + 1 ∧ place + n = r.size)) ∧
    calls.flatMap Removal.items = removed := by
  let ops : List (RingOp Nat) :=
    [.appendBatch [0, 1, 2, 3, 4, 5, 6, 7, 8], .pollBatch 4, .appendEntry 9, .appendBatch [10, 11],
      .delete 12, .poll, .pollBatch 1]
  have admits : IndexedList.new.AdmitsAll ops := by
    simp [ops, IndexedList.AdmitsAll, IndexedList.Admits, IndexedList.exec, IndexedList.new,
      IndexedList.release, IndexedList.back]
  exact ⟨_, _, _, _, by decide +kernel, ring_refines_list admits rfl rfl⟩

end Runs

/-! ## The log of the handlers -/

section Stands

variable {ι α : Type} [Inhabited (Entry ι α)]

set_option linter.unusedSectionVars false

/-- The ring stands for the log: the same fields, and the retained entries in its cells. -/
structure Stands (r : RaftRing (Entry ι α)) (l : Log ι α) : Prop where
  wf : l.Wf
  size : (r.size : Int) = l.size
  front : (r.front : Int) = l.front
  holds : r.Holds (l.entries.drop r.front)

namespace Stands

variable {r : RaftRing (Entry ι α)} {l : Log ι α}

variable (stands : Stands r l)
include stands

theorem length : ((l.entries.drop r.front).length : Int) = l.back - l.front := by
  have length := stands.wf.length_eq
  have front := stands.front
  have order := stands.wf.front_le
  rw [List.length_drop]
  omega

theorem count : (r.count : Int) = l.count := by
  rw [stands.holds.count_eq, stands.length, stands.wf.count_eq]

theorem back : (r.back : Int) = l.back := by
  have length := stands.length
  have front := stands.front
  rw [stands.holds.back_eq]
  push_cast at length ⊢
  omega

omit stands in
theorem new : Stands (RaftRing.logNew : RaftRing (Entry ι α)) logNew :=
  ⟨logNew_wf, rfl, rfl, by simpa [logNew, IndexedList.new] using represents_new.2⟩

/-- Entries behind the log leave its released part alone. -/
theorem extend (es : List (Entry ι α)) :
    (l.entries ++ es).drop r.front = l.entries.drop r.front ++ es := by
  have length := stands.wf.length_eq
  have front := stands.front
  have order := stands.wf.front_le
  exact List.drop_append_of_le_length (by omega)

theorem appendEntry (c : Entry ι α) : Stands (r.logAppendEntry c) (logAppendEntry l c) := by
  obtain ⟨kept, same, room⟩ := stands.holds.ensureCapacity
  have grown := logAppendEntry_grown (l := l) c
  have front : (r.logAppendEntry c).front = r.front := same
  refine ⟨grown.keeps stands.wf, ?_, ?_, ?_⟩
  · have size := stands.size
    have count := stands.count
    change (r.ensureCapacity.size : Int) = (ensureCapacity l).size
    unfold RaftRing.ensureCapacity ensureCapacity RaftRing.double
    by_cases free : r.count < r.size
    · rw [if_pos free, if_pos (by omega)]
      exact size
    · rw [if_neg free, if_neg (by omega)]
      push_cast
      rw [size]
  · rw [front, grown.front_eq, stands.front]
  · rw [front, grown.entries_eq, stands.extend]
    exact kept.write c room

omit stands in
theorem size_growLoop (count : Nat) (fuel : Nat) (r : RaftRing (Entry ι α)) :
    ((RaftRing.growLoop count fuel r).size : Int) = grow (r.count + count) fuel r.size := by
  induction fuel generalizing r with
  | zero => rfl
  | succ fuel ih =>
    rw [RaftRing.growLoop, grow]
    by_cases full : r.count + count > r.size
    · rw [if_pos full, if_pos (by omega), ih]
      rfl
    · rw [if_neg full, if_neg (by omega)]

theorem appendBatch {cs : List (Entry ι α)} (some_ : 1 ≤ cs.length) :
    Stands (r.logAppendBatch cs) (logAppendBatch l cs) := by
  obtain ⟨kept, same, room⟩ := stands.holds.ensureCapacityBatch cs.length
  have grown := logAppendBatch_grown (l := l) cs
  have front : (r.logAppendBatch cs).front = r.front := same
  refine ⟨grown.keeps stands.wf, ?_, ?_, ?_⟩
  · change ((r.ensureCapacityBatch cs.length).size : Int) = (ensureCapacityBatch l cs.length).size
    unfold RaftRing.ensureCapacityBatch ensureCapacityBatch
    rw [size_growLoop, stands.count, stands.size, ← stands.count]
    congr 1
  · rw [front, grown.front_eq, stands.front]
  · rw [front, grown.entries_eq, stands.extend]
    exact kept.writeBatch some_ room

/-- The reads agree. -/
theorem getAtIdx (idx : Int) : r.logGetAtIdx idx = logGetAtIdx l idx := by
  have front := stands.front
  have back := stands.back
  have ends := stands.holds.back_eq
  rw [stands.holds.logGetAtIdx]
  unfold IndexedList.at? logGetAtIdx
  simp only [IndexedList.back, ← ends]
  by_cases inside : l.front < idx ∧ idx ≤ l.back
  · have nonneg := stands.wf.front_nonneg
    rw [if_pos (by omega), if_neg (by omega), if_neg (by omega), List.getElem?_drop]
    congr 1
    omega
  · rw [if_neg (by omega)]
    split
    · rfl
    · rw [if_pos (by omega)]

theorem getFromIdx (idx : Int) :
    ((r.logGetFromIdx idx).map fun p => readBlock r.entries p.1 p.2).getD [] =
      logGetFromIdx l idx := by
  have front := stands.front
  have back := stands.back
  have nonneg := stands.wf.front_nonneg
  by_cases inside : l.front < idx ∧ idx ≤ l.back
  · obtain ⟨place, n, range, -, -, block⟩ :=
      stands.holds.logGetFromIdx (show (r.front : Int) < idx by omega) (by omega)
    rw [range, Option.map_some, Option.getD_some, block, List.drop_drop]
    unfold logGetFromIdx
    rw [if_neg (by omega), if_neg (by omega)]
    unfold RaftRing.logGetFromIdx at range
    rw [if_neg (by omega), if_neg (by omega)] at range
    simp only [Option.some.injEq, Prod.mk.injEq] at range
    have place_ : relPos (idx - 1) l.size = (((idx - 1).toNat % r.size : Nat) : Int) := by
      rw [relPos, ← stands.size, Int.natCast_emod, Int.toNat_of_nonneg (by omega)]
    have end_ : relPos l.back l.size = ((r.back % r.size : Nat) : Int) := by
      rw [relPos, ← stands.size, ← back, Int.natCast_emod]
    have below : (idx - 1).toNat % r.size < r.size := Nat.mod_lt _ stands.holds.size_pos
    have taken : n = (if relPos (idx - 1) l.size < relPos l.back l.size then
        relPos l.back l.size - relPos (idx - 1) l.size
        else l.size - relPos (idx - 1) l.size).toNat := by
      rw [place_, end_, ← stands.size, ← range.2]
      split <;> split <;> omega
    simp only [← taken]
    congr 2
    omega
  · have outside : r.logGetFromIdx idx = none := by
      unfold RaftRing.logGetFromIdx
      split
      · rfl
      · rw [if_pos (by omega)]
    rw [outside]
    unfold logGetFromIdx
    split
    · rfl
    · rw [if_pos (by omega)]
      rfl

/-- One turn of a truncation. -/
theorem pop (some_ : l.front < l.back) :
    ∃ x, l.entries[(l.back - 1).toNat]? = some x ∧ r.entries ((r.back - 1) % r.size) = x ∧
      Stands { r with back := r.back - 1, count := r.count - 1 }
        { l with
          back := l.back - 1, count := l.count - 1, entries := l.entries.take (l.back - 1).toNat } := by
  have front := stands.front
  have length := stands.wf.length_eq
  have nonneg := stands.wf.front_nonneg
  obtain ⟨x, last⟩ : ∃ x, l.entries[(l.back - 1).toNat]? = some x :=
    ⟨_, List.getElem?_eq_getElem (by omega)⟩
  have split_ : l.entries.drop r.front = (l.entries.take (l.back - 1).toNat).drop r.front ++ [x] := by
    have whole : l.entries = l.entries.take (l.back - 1).toNat ++ [x] := by
      obtain ⟨bound, here⟩ := List.getElem?_eq_some_iff.mp last
      rw [← here, ← List.take_succ_eq_append_getElem bound,
        List.take_of_length_le (by omega)]
    conv_lhs => rw [whole]
    rw [List.drop_append_of_le_length]
    rw [List.length_take]
    omega
  have holds := stands.holds
  rw [split_] at holds
  refine ⟨x, last, holds.newest, ?_, stands.size, front, holds.pop⟩
  refine ⟨stands.wf.size_pos, nonneg, by simp only; omega, ?_, ?_⟩
  · have count := stands.wf.count_eq
    simp only
    omega
  · simp only
    rw [List.length_take_of_le (by omega)]
    omega

theorem deleteLoop (turns : Nat) (short : (turns : Int) ≤ l.back - l.front) :
    Stands (RaftRing.deleteLoop turns r).1 (logPopLoop turns l).1 ∧
      (RaftRing.deleteLoop turns r).2 =
        (logPopLoop turns l).2.map fun p => .logPop p.1 p.2.toNat := by
  induction turns generalizing r l with
  | zero => exact ⟨stands, rfl⟩
  | succ turns ih =>
    obtain ⟨x, last, newest, rest⟩ := stands.pop (by omega)
    obtain ⟨kept, calls⟩ := ih rest (by simp only; omega)
    refine ⟨kept, ?_⟩
    have back := stands.back
    have order := stands.wf.front_nonneg
    rw [RaftRing.deleteLoop, logPopLoop, calls]
    simp only [last, newest, Option.toList_some, List.map_cons, List.map_nil,
      List.singleton_append, List.cons.injEq, Removal.logPop.injEq, true_and, and_true]
    omega

/-- Truncations agree, and pop the same entries. -/
theorem delete {idx : Int} (low : l.front < idx) (high : idx ≤ l.back + 1) :
    Stands (r.logDelete idx.toNat).1 (logDelete l idx).1 ∧
      (r.logDelete idx.toNat).2 = (logDelete l idx).2.map fun p => .logPop p.1 p.2.toNat := by
  have back := stands.back
  have nonneg := stands.wf.front_nonneg
  have turns : r.back - (idx.toNat - 1) = (l.back - (idx - 1)).toNat := by omega
  unfold RaftRing.logDelete logDelete
  rw [turns]
  exact stands.deleteLoop _ (by omega)

/-- Compactions agree, and release the same entries. -/
theorem pollBatch {cnt : Int} (pos : 1 ≤ cnt) (fits : cnt ≤ l.count) :
    Stands (r.logPollBatch cnt.toNat).1 (logPollBatch l cnt) ∧
      (r.logPollBatch cnt.toNat).2.flatMap Removal.items =
        (logPolled l cnt).flatMap fun p => p.1.zipIdx p.2.toNat := by
  have count := stands.count
  have counted := stands.wf.count_eq
  have front := stands.front
  have length := stands.length
  have all := stands.wf.length_eq
  have below : (cnt.toNat : Int) ≤ (l.entries.drop r.front).length := by omega
  have exact_ : (if cnt.toNat > r.count then r.count else cnt.toNat) = cnt.toNat :=
    if_neg (by omega)
  refine ⟨?_, ?_⟩
  · rw [logPollBatch_eq fits]
    refine ⟨⟨stands.wf.size_pos, ?_, ?_, ?_, all⟩, stands.size, ?_, ?_⟩
    · have nonneg := stands.wf.front_nonneg
      simp only
      omega
    · simp only
      omega
    · simp only
      omega
    · simp only [RaftRing.logPollBatch, exact_]
      omega
    · have polled := stands.holds.poll (show cnt.toNat ≤ (l.entries.drop r.front).length by omega)
      simp only [RaftRing.logPollBatch, exact_]
      rwa [List.drop_drop] at polled
  · rw [stands.holds.polled (by omega) (by omega)]
    unfold logPolled pollCount
    simp only [if_neg (show ¬ cnt > l.count by omega), ← front, Int.toNat_natCast]
    split
    · simp
    · rename_i wraps
      obtain ⟨part1, part⟩ : ∃ part1 : Nat, l.size - relPos (r.front : Int) l.size = part1 := by
        have inRing := Int.emod_lt_of_pos (r.front : Int) stands.wf.size_pos
        exact ⟨(l.size - relPos (r.front : Int) l.size).toNat, by rw [relPos]; omega⟩
      have beyond : (part1 : Int) < cnt := by
        by_contra inLap
        rw [relPos_add (by omega) (by omega)] at wraps
        omega
      simp only [part, Int.toNat_natCast, List.flatMap_cons, List.flatMap_nil, List.append_nil]
      rw [show ((r.front : Int) + part1).toNat = r.front + part1 by omega]
      conv_lhs => rw [← List.take_append_drop part1 ((l.entries.drop r.front).take cnt.toNat)]
      rw [List.zipIdx_append, List.length_take_of_le]
      rw [List.length_take_of_le (by omega)]
      omega

end Stands

end Stands

end Cyclone.Core
