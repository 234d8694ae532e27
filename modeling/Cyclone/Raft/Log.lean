/-
# Raft.Log — the entry log of `raft_log.c`

`front` and `back` are absolute: the slot of the entry with 1-based index `idx`
is `idx - 1`, entries at or below `front` have been released by compaction, and
`back` is the index of the newest entry.  The ring is kept as the list of its
slots from 0 to `back - 1`; a released slot stays in the list and is never read.
`size` is the ring's capacity: it decides where a range read stops
(`logGetFromIdx` never crosses the physical end), and it doubles before a write
that would not fit.

`logDelete` pops the newest entry until `back` reaches its target, one callback
a pop; `logPollBatch` releases the oldest.
-/
import Mathlib.Data.List.Basic
import Mathlib.Data.Int.Order.Basic
import Mathlib.Tactic.Common

namespace Cyclone.Raft

set_option autoImplicit false

/-- `raft_logtype_e`, a configuration change with the node its `cfg_change_t` names. -/
inductive LogType (ι : Type) where
  | normal
  | addNonvotingNode (node : ι)
  | addNode (node : ι)
  | removeNode (node : ι)
deriving DecidableEq, Repr

/-- The appendentries header kept in front of an entry's packet (`add_head`); a
retransmission sends it as it stands. -/
structure Head where
  prevLogIdx : Int
  prevLogTerm : Int
deriving DecidableEq, Repr

/-- `raft_entry_t`: `head` is the header inside `pkt`. -/
structure Entry (ι α : Type) where
  term : Int
  id : Int
  type : LogType ι
  data : α
  head : Head
deriving DecidableEq, Repr

/-- `log_private_t`, less its callback pointers. -/
structure Log (ι α : Type) where
  size : Int
  count : Int
  front : Int
  back : Int
  entries : List (Entry ι α)
deriving DecidableEq, Repr

section Log

variable {ι α : Type}

/-- `INITIAL_CAPACITY`. -/
def initialCapacity : Int := 10

def logNew : Log ι α :=
  { size := initialCapacity, count := 0, front := 0, back := 0, entries := [] }

/-- `REL_POS`. -/
def relPos (i s : Int) : Int := i % s

/-- The doubling loop of `__ensurecapacity_batch`; `fuel` bounds the doublings. -/
def grow (need : Int) : Nat → Int → Int
  | 0, size => size
  | fuel + 1, size => if need > size then grow need fuel (2 * size) else size

/-- `__ensurecapacity`. -/
def ensureCapacity (l : Log ι α) : Log ι α :=
  if l.count < l.size then l else { l with size := 2 * l.size }

/-- `__ensurecapacity_batch`. -/
def ensureCapacityBatch (l : Log ι α) (count : Int) : Log ι α :=
  { l with size := grow (l.count + count) (l.count + count).toNat l.size }

/-- `log_append_entry` after its callback: the write at `back`. -/
def logAppendEntry (l : Log ι α) (c : Entry ι α) : Log ι α :=
  let l := ensureCapacity l
  { l with count := l.count + 1, back := l.back + 1, entries := l.entries ++ [c] }

/-- `log_append_batch` after its callback: the writes from `back` on. -/
def logAppendBatch (l : Log ι α) (cs : List (Entry ι α)) : Log ι α :=
  let l := ensureCapacityBatch l cs.length
  { l with
    count := l.count + cs.length
    back := l.back + cs.length
    entries := l.entries ++ cs }

/-- `log_get_at_idx`. -/
def logGetAtIdx (l : Log ι α) (idx : Int) : Option (Entry ι α) :=
  if idx = 0 then none
  else if l.front > idx - 1 ∨ idx - 1 ≥ l.back then none
  else l.entries[(idx - 1).toNat]?

/-- `log_get_from_idx`: the entries from `idx` up to the end of the log or the
physical end of the ring, whichever comes first. -/
def logGetFromIdx (l : Log ι α) (idx : Int) : List (Entry ι α) :=
  if idx = 0 then []
  else if l.front > idx - 1 ∨ idx - 1 ≥ l.back then []
  else
    let i := relPos (idx - 1) l.size
    let back := relPos l.back l.size
    let logsTillEndOfLog := if i < back then back - i else l.size - i
    (l.entries.drop (idx - 1).toNat).take logsTillEndOfLog.toNat

/-- `log_get_current_idx`. -/
def logGetCurrentIdx (l : Log ι α) : Int := l.back

/-- The loop of `log_delete`, `k` turns: the log left, and the entries handed to
`log_pop` with their 0-based indices, in the order of the calls. -/
def logPopLoop : Nat → Log ι α → Log ι α × List (Entry ι α × Int)
  | 0, l => (l, [])
  | k + 1, l =>
    let back := l.back - 1
    let popped := (l.entries[back.toNat]?).toList.map fun e => (e, back)
    let rest := logPopLoop k
      { l with back := back, count := l.count - 1, entries := l.entries.take back.toNat }
    (rest.1, popped ++ rest.2)

/-- `log_delete`: pops until `back` is `idx - 1`.  Its callers pass an `idx` not
beyond `back + 1`; past that the loop of the source would not end. -/
def logDelete (l : Log ι α) (idx : Int) : Log ι α × List (Entry ι α × Int) :=
  logPopLoop (l.back - (idx - 1)).toNat l

/-- The number of entries `log_poll_batch` releases. -/
def pollCount (l : Log ι α) (cnt : Int) : Int :=
  if cnt > l.count then l.count else cnt

/-- `log_poll_batch`. -/
def logPollBatch (l : Log ι α) (cnt : Int) : Log ι α :=
  { l with front := l.front + pollCount l cnt, count := l.count - pollCount l cnt }

/-- The calls `log_poll_batch` makes, each with its entries and the index of the first:
two when the range crosses the physical end of the ring. -/
def logPolled (l : Log ι α) (cnt : Int) : List (List (Entry ι α) × Int) :=
  let cnt := pollCount l cnt
  let polled := (l.entries.drop l.front.toNat).take cnt.toNat
  if relPos (l.front + cnt - 1) l.size ≥ relPos l.front l.size then [(polled, l.front)]
  else
    let part1 := l.size - relPos l.front l.size
    [(polled.take part1.toNat, l.front), (polled.drop part1.toNat, l.front + part1)]

/-! ## Well-formed logs -/

/-- The cursors describe the list: `entries` are the slots `0 .. back - 1`, of which
those from `front` on are retained. -/
structure Log.Wf (l : Log ι α) : Prop where
  size_pos : 0 < l.size
  front_nonneg : 0 ≤ l.front
  front_le : l.front ≤ l.back
  count_eq : l.count = l.back - l.front
  length_eq : (l.entries.length : Int) = l.back

theorem logNew_wf : (logNew : Log ι α).Wf :=
  ⟨by show (0 : Int) < 10; decide, Int.le_refl 0, Int.le_refl 0, rfl, rfl⟩

variable {l : Log ι α}

variable {idx : Int} {e : Entry ι α}

/-- Only retained indices are read. -/
theorem logGetAtIdx_bounds (found : logGetAtIdx l idx = some e) : l.front < idx ∧ idx ≤ l.back := by
  unfold logGetAtIdx at found
  split at found
  · cases found
  · split at found
    · cases found
    · omega

theorem mem_of_getFromIdx (member : e ∈ logGetFromIdx l idx) : e ∈ l.entries := by
  unfold logGetFromIdx at member
  split at member
  · cases member
  · split at member
    · cases member
    · exact List.mem_of_mem_drop (List.mem_of_mem_take member)

theorem logGetAtIdx_retained (nonneg : 0 ≤ l.front) (low : l.front < idx) (high : idx ≤ l.back) :
    logGetAtIdx l idx = l.entries[(idx - 1).toNat]? := by
  unfold logGetAtIdx
  rw [if_neg (by omega), if_neg (by omega)]

namespace Log.Wf

variable (wf : l.Wf)
include wf

variable {idx : Int}

theorem getAtIdx_some {e : Entry ι α} (found : logGetAtIdx l idx = some e) :
    l.entries[(idx - 1).toNat]? = some e := by
  obtain ⟨low, high⟩ := logGetAtIdx_bounds found
  rw [← logGetAtIdx_retained wf.front_nonneg low high, found]

theorem getAtIdx_exists (low : l.front < idx) (high : idx ≤ l.back) :
    ∃ e, logGetAtIdx l idx = some e := by
  have length := wf.length_eq
  have nonneg := wf.front_nonneg
  rw [logGetAtIdx_retained nonneg low high]
  exact ⟨_, List.getElem?_eq_getElem (by omega)⟩

theorem getAtIdx_none (missing : logGetAtIdx l idx = none) : idx ≤ l.front ∨ l.back < idx := by
  by_contra inside
  obtain ⟨e, found⟩ := wf.getAtIdx_exists (show l.front < idx by omega) (by omega)
  rw [missing] at found
  cases found

/-- A range read starts at its index and stays in the log. -/
theorem getFromIdx_eq (some_ : logGetFromIdx l idx ≠ []) :
    l.front < idx ∧ idx ≤ l.back ∧
      ∃ k, logGetFromIdx l idx = (l.entries.drop (idx - 1).toNat).take k := by
  unfold logGetFromIdx at some_ ⊢
  split at some_
  · exact absurd rfl some_
  · split at some_
    · exact absurd rfl some_
    · rename_i nonzero inside
      have nonneg := wf.front_nonneg
      rw [if_neg nonzero, if_neg inside]
      exact ⟨by omega, by omega, _, rfl⟩

/-- A range read is empty only outside the retained indices. -/
theorem getFromIdx_nil (pos : 1 ≤ idx) (empty : logGetFromIdx l idx = []) :
    idx ≤ l.front ∨ l.back < idx := by
  unfold logGetFromIdx at empty
  rw [if_neg (by omega)] at empty
  split at empty
  · omega
  · exfalso
    have length := wf.length_eq
    have nonneg := wf.front_nonneg
    have fits : relPos (idx - 1) l.size < l.size := Int.emod_lt_of_pos (idx - 1) wf.size_pos
    simp only [List.take_eq_nil_iff, List.drop_eq_nil_iff] at empty
    rcases empty with none_ | short
    · split at none_ <;> omega
    · omega

end Log.Wf

/-! ## Appending -/

variable {size : Int}

theorem grow_pos {need : Int} (fuel : Nat) (pos : 0 < size) : 0 < grow need fuel size := by
  induction fuel generalizing size with
  | zero => exact pos
  | succ fuel ih =>
    unfold grow
    split
    · exact ih (by omega)
    · exact pos

/-- `l'` is `l` with the entries `es` written at its end. -/
structure Log.Grown (l l' : Log ι α) (es : List (Entry ι α)) : Prop where
  front_eq : l'.front = l.front
  back_eq : l'.back = l.back + es.length
  entries_eq : l'.entries = l.entries ++ es
  keeps : l.Wf → l'.Wf

theorem logAppendBatch_grown (es : List (Entry ι α)) : l.Grown (logAppendBatch l es) es := by
  refine ⟨rfl, rfl, rfl, fun wf => ⟨grow_pos _ wf.size_pos, wf.front_nonneg, ?_, ?_, ?_⟩⟩
  · have := wf.front_le
    simp only [logAppendBatch, ensureCapacityBatch]
    omega
  · have := wf.count_eq
    simp only [logAppendBatch, ensureCapacityBatch]
    omega
  · have := wf.length_eq
    simp only [logAppendBatch, ensureCapacityBatch, List.length_append]
    omega

theorem logAppendEntry_grown (e : Entry ι α) : l.Grown (logAppendEntry l e) [e] := by
  have front : (ensureCapacity l).front = l.front := by unfold ensureCapacity; split <;> rfl
  have back : (ensureCapacity l).back = l.back := by unfold ensureCapacity; split <;> rfl
  have count : (ensureCapacity l).count = l.count := by unfold ensureCapacity; split <;> rfl
  have entries : (ensureCapacity l).entries = l.entries := by unfold ensureCapacity; split <;> rfl
  refine ⟨front, by simp [logAppendEntry, back], by simp [logAppendEntry, entries], fun wf => ?_⟩
  have size : 0 < (ensureCapacity l).size := by
    have := wf.size_pos
    unfold ensureCapacity
    split
    · exact this
    · simp only; omega
  have := wf.front_nonneg
  have := wf.front_le
  have := wf.count_eq
  have := wf.length_eq
  constructor <;>
    simp only [logAppendEntry, front, back, count, entries, List.length_append,
      List.length_singleton] <;> omega

/-! ## Truncating -/

theorem logPopLoop_log (k : Nat) (l : Log ι α) (length : (l.entries.length : Int) = l.back)
    (short : (k : Int) ≤ l.back) :
    (logPopLoop k l).1 =
      { l with
        back := l.back - k, count := l.count - k
        entries := l.entries.take (l.back - k).toNat } := by
  induction k generalizing l with
  | zero =>
    have all : l.entries.take (l.back - ((0 : Nat) : Int)).toNat = l.entries :=
      List.take_of_length_le (by omega)
    simp only [logPopLoop, all]
    simp
  | succ k ih =>
    have cut : (l.entries.take (l.back - 1).toNat).length = (l.back - 1).toNat :=
      List.length_take_of_le (by omega)
    rw [logPopLoop]
    simp only
    rw [ih _ (by simp only; omega) (by simp only; omega)]
    have back : l.back - 1 - (k : Int) = l.back - ((k + 1 : Nat) : Int) := by omega
    have count : l.count - 1 - (k : Int) = l.count - ((k + 1 : Nat) : Int) := by omega
    have inner : min (l.back - ((k + 1 : Nat) : Int)).toNat (l.back - 1).toNat =
        (l.back - ((k + 1 : Nat) : Int)).toNat := by omega
    simp only [List.take_take, back, count, inner]

/-- Whatever is popped, it is popped from the end. -/
theorem logPopLoop_starts (k : Nat) (l : Log ι α) : (logPopLoop k l).1.entries <+: l.entries := by
  induction k generalizing l with
  | zero => exact List.prefix_rfl
  | succ k ih => exact (ih _).trans (List.take_prefix _ _)

/-- Every entry popped was at its index, and the popped indices are the topmost ones. -/
theorem mem_logPopLoop {k : Nat} {l : Log ι α} (length : (l.entries.length : Int) = l.back)
    (short : (k : Int) ≤ l.back) {p : Entry ι α × Int} :
    p ∈ (logPopLoop k l).2 ↔
      l.back - k ≤ p.2 ∧ p.2 < l.back ∧ l.entries[p.2.toNat]? = some p.1 := by
  induction k generalizing l with
  | zero =>
    simp only [logPopLoop, List.not_mem_nil, false_iff]
    omega
  | succ k ih =>
    have cut : (l.entries.take (l.back - 1).toNat).length = (l.back - 1).toNat :=
      List.length_take_of_le (by omega)
    rw [logPopLoop]
    simp only [List.mem_append]
    rw [ih (by simp only; omega) (by simp only; omega)]
    simp only [List.mem_map, Option.mem_toList]
    constructor
    · rintro (⟨e, found, rfl⟩ | ⟨low, high, found⟩)
      · exact ⟨by simp only; omega, by simp only; omega, found⟩
      · rw [List.getElem?_take_of_lt (by omega)] at found
        exact ⟨by omega, by omega, found⟩
    · rintro ⟨low, high, found⟩
      by_cases top : p.2 = l.back - 1
      · left
        exact ⟨p.1, by rw [← top]; exact found, by rw [← top]⟩
      · right
        refine ⟨by omega, by omega, ?_⟩
        rw [List.getElem?_take_of_lt (by omega)]
        exact found

section Delete

variable (wf : l.Wf) {idx : Int} (low : l.front < idx) (high : idx ≤ l.back)
include wf low high

theorem logDelete_log :
    (logDelete l idx).1 =
      { l with
        back := idx - 1, count := idx - 1 - l.front
        entries := l.entries.take (idx - 1).toNat } := by
  have nonneg := wf.front_nonneg
  have count := wf.count_eq
  have back : l.back - ((l.back - (idx - 1)).toNat : Int) = idx - 1 := by omega
  have counted : l.count - ((l.back - (idx - 1)).toNat : Int) = idx - 1 - l.front := by omega
  rw [logDelete, logPopLoop_log _ _ wf.length_eq (by omega), back, counted]

theorem logDelete_wf : (logDelete l idx).1.Wf := by
  have nonneg := wf.front_nonneg
  have length := wf.length_eq
  rw [logDelete_log wf low high]
  refine ⟨wf.size_pos, nonneg, by simp only; omega, rfl, ?_⟩
  simp only
  rw [List.length_take_of_le (by omega)]
  omega

theorem mem_logDelete {p : Entry ι α × Int} :
    p ∈ (logDelete l idx).2 ↔
      idx - 1 ≤ p.2 ∧ p.2 < l.back ∧ l.entries[p.2.toNat]? = some p.1 := by
  have nonneg := wf.front_nonneg
  have back : l.back - ((l.back - (idx - 1)).toNat : Int) = idx - 1 := by omega
  rw [logDelete, mem_logPopLoop wf.length_eq (by omega), back]

end Delete

/-! ## Compacting -/

variable {cnt : Int}

theorem logPollBatch_eq (fits : cnt ≤ l.count) :
    logPollBatch l cnt = { l with front := l.front + cnt, count := l.count - cnt } := by
  unfold logPollBatch pollCount
  rw [if_neg (by omega)]

/-- A range that starts and ends in one lap of the ring does not wrap. -/
theorem relPos_add {front : Int} (pos : 0 < cnt) (inLap : relPos front size + cnt ≤ size) :
    relPos (front + cnt - 1) size = relPos front size + cnt - 1 := by
  unfold relPos at inLap ⊢
  have split_ := Int.emod_add_mul_ediv front size
  have start : front + cnt - 1 = front % size + cnt - 1 + size * (front / size) := by omega
  rw [start, Int.add_mul_emod_self_left]
  by_cases zero : size = 0
  · rw [zero, Int.emod_zero]
  · exact Int.emod_eq_of_lt (by have := Int.emod_nonneg front zero; omega) (by omega)

/-- The released entries are the oldest retained ones. -/
theorem mem_logPolled (wf : l.Wf) (pos : 0 < cnt) (fits : cnt ≤ l.count)
    {p : List (Entry ι α) × Int} (polled : p ∈ logPolled l cnt) :
    l.front ≤ p.2 ∧ p.2 + p.1.length ≤ l.front + cnt := by
  have length := wf.length_eq
  have count := wf.count_eq
  have front := wf.front_nonneg
  have inRing : relPos l.front l.size < l.size := Int.emod_lt_of_pos l.front wf.size_pos
  have taken : ((l.entries.drop l.front.toNat).take cnt.toNat).length = cnt.toNat := by
    rw [List.length_take_of_le]
    rw [List.length_drop]
    omega
  unfold logPolled pollCount at polled
  simp only [if_neg (show ¬ cnt > l.count by omega)] at polled
  split at polled
  · obtain rfl := List.mem_singleton.mp polled
    simp only [taken]
    omega
  · rename_i wraps
    have beyond : l.size < relPos l.front l.size + cnt := by
      by_contra inLap
      rw [relPos_add pos (by omega)] at wraps
      omega
    simp only [List.mem_cons, List.not_mem_nil, or_false] at polled
    rcases polled with rfl | rfl
    · simp only [List.length_take, taken]
      omega
    · simp only [List.length_drop, taken]
      omega

end Log

end Cyclone.Raft
