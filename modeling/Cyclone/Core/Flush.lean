/-
# Core.Flush — what `log_persist` and `persist_mbuf` write back

Two functions make an accepted entry durable.  `log_persist` flushes the slots of the
persistent log that a batch wrote: the first one, every eighth one counted from it, the
first slot of the array after a wrap, and the line of `head` and `tail`.  Lines start
at fixed addresses and the slots 16 bytes into one, so slot `i` lies in line
`(i + 2) / 8`; a run of slots that reaches into one more line than it has full eights
leaves that line out.  `slots_flushed_iff` says for which tails and lengths.

`persist_mbuf` writes back the headers of a chain of packets and, of each buffer, as many
bytes as the segment has data, but counted from the start of the buffer and not from
where the data starts (`data_persisted`).
-/
import Cyclone.Core.CircularLog
import Cyclone.Theory.CacheLine

namespace Cyclone.Core

open Cyclone.Theory

set_option autoImplicit false

/-- Bytes in a cache line. -/
def lineBytes : Nat := 64

/-! ## The slots of the log -/

namespace CircularLog

variable {P : Type}

/-- `log_data(log)[i]`, behind a `raft_pstate_t` at `base`. -/
def slotAddr (base i : Nat) : Nat := base + 16 + 8 * i

/-- `*log`, behind `term` and `voted_for`; `head` is here and `tail` four bytes on. -/
def headAddr (base : Nat) : Nat := base + 8

/-- The loop of `log_persist`: the slots it flushes; nothing when `fuel` turns are not enough. -/
def persistLoop (n newTail : Nat) : Nat → Nat → Nat → Option (List Nat)
  | 0, oldTail, _ => if oldTail = newTail then some [] else none
  | fuel + 1, oldTail, blocks =>
    if oldTail = newTail then some []
    else
      let oldTail := oldTail + 1
      let blocks := blocks + 1
      let eighth := if blocks = 8 then [oldTail] else []
      let blocks := if blocks = 8 then 0 else blocks
      if oldTail = n then (persistLoop n newTail fuel 0 0).map fun rest => eighth ++ 0 :: rest
      else (persistLoop n newTail fuel oldTail blocks).map fun rest => eighth ++ rest

/-- `log_persist`: the addresses it flushes, in order. -/
def logPersistFlushes (n base fuel : Nat) (log : CircularLog P) (newTail : Nat) :
    Option (List Nat) :=
  (persistLoop n newTail fuel log.tail 0).map fun slots =>
    (log.tail :: slots).map (slotAddr base) ++ [headAddr base]

/-- The slots written by `count` calls of `log_offer`, from `tail` on. -/
def writtenSlots (n : Nat) : Nat → Nat → List Nat
  | 0, _ => []
  | count + 1, tail => tail :: writtenSlots n count (if tail + 1 = n then 0 else tail + 1)

variable {n tail tail' : Nat} {log' : CircularLog P}

theorem logOffer_some {log : CircularLog P} {ptr : P}
    (offered : log.logOffer n ptr tail = (log', some tail')) :
    log' = { log with data := Function.update log.data tail ptr } ∧
      tail' = (if tail + 1 = n then 0 else tail + 1) ∧ tail' ≠ log.head := by
  simp only [logOffer, Prod.mk.injEq] at offered
  obtain ⟨rfl, next⟩ := offered
  refine ⟨rfl, ?_⟩
  generalize (if tail + 1 = n then 0 else tail + 1) = stop at next
  split at next
  · cases next
  · rename_i differ
    cases next
    exact ⟨rfl, differ⟩

variable {pkts : List P}

/-- They are the slots the calls write, and nothing else is written. -/
theorem offerLoop_writes {log : CircularLog P}
    (offered : offerLoop n pkts log tail = some (log', tail')) :
    log' = { log with
      data := ((writtenSlots n pkts.length tail).zip pkts).foldl
        (fun data p => Function.update data p.1 p.2) log.data } := by
  induction pkts generalizing log tail with
  | nil =>
    cases offered
    rfl
  | cons pkt pkts ih =>
    rw [offerLoop] at offered
    split at offered
    · cases offered
    · rename_i log₁ tail₁ one
      obtain ⟨rfl, rfl, -⟩ := logOffer_some one
      exact ih offered

/-- Where successful calls of `log_offer` end: they never come round to `head`. -/
theorem offerLoop_tail {log : CircularLog P} (head : log.head < n) (inside : tail < n)
    (offered : offerLoop n pkts log tail = some (log', tail')) :
    pkts.length < (if tail < log.head then log.head - tail else log.head + n - tail) ∧
      tail' = if tail + pkts.length < n then tail + pkts.length else tail + pkts.length - n := by
  induction pkts generalizing log tail with
  | nil =>
    cases offered
    simp only [List.length_nil]
    split <;> split <;> omega
  | cons pkt pkts ih =>
    rw [offerLoop] at offered
    split at offered
    · cases offered
    · rename_i log₁ tail₁ one
      obtain ⟨rfl, next, differ⟩ := logOffer_some one
      have inside₁ : tail₁ < n := by
        rw [next]
        split <;> omega
      obtain ⟨room, stop⟩ :=
        @ih tail₁ { log with data := Function.update log.data tail pkt } head inside₁ offered
      simp only [List.length_cons] at room stop ⊢
      split at next <;> subst next <;> split at room <;> split at stop <;> split <;> split <;> omega

/-! ## The flushes of the loop -/

variable {count oldTail blocks fuel : Nat}

/-- Up to a new tail ahead: every eighth slot, counting the ones passed before. -/
theorem persistLoop_ahead (n : Nat) (few : blocks < 8) (inside : oldTail + count < n)
    (enough : count ≤ fuel) :
    ∃ slots, persistLoop n (oldTail + count) fuel oldTail blocks = some slots ∧
      ∀ i, i ∈ slots ↔ oldTail < i ∧ i ≤ oldTail + count ∧ (i + blocks - oldTail) % 8 = 0 := by
  induction count generalizing oldTail blocks fuel with
  | zero =>
    refine ⟨[], ?_, fun i => ?_⟩
    · cases fuel <;> simp [persistLoop]
    · simp only [List.not_mem_nil, false_iff]
      omega
  | succ count ih =>
    obtain ⟨fuel, rfl⟩ : ∃ fuel', fuel = fuel' + 1 := ⟨fuel - 1, by omega⟩
    have stop : oldTail + (count + 1) = oldTail + 1 + count := by omega
    have full : (if blocks + 1 = 8 then 0 else blocks + 1) < 8 := by split <;> omega
    obtain ⟨slots, ran, each⟩ := ih full (show oldTail + 1 + count < n by omega)
      (show count ≤ fuel by omega)
    refine ⟨(if blocks + 1 = 8 then [oldTail + 1] else []) ++ slots, ?_, fun i => ?_⟩
    · rw [stop, persistLoop, if_neg (by omega)]
      simp only
      rw [if_neg (by omega), ran]
      rfl
    · rw [List.mem_append, each]
      split
      · simp only [List.mem_singleton]
        omega
      · simp only [List.not_mem_nil, false_or]
        omega

/-- Over the end of the array to a new tail behind: the count starts again at slot 0. -/
theorem persistLoop_around (n : Nat) {newTail : Nat} (few : blocks < 8)
    (ends : oldTail + count = n) (some_ : 0 < count) (behind : newTail < oldTail)
    (enough : count + newTail ≤ fuel) :
    ∃ slots, persistLoop n newTail fuel oldTail blocks = some slots ∧
      ∀ i, i ∈ slots ↔ (oldTail < i ∧ i ≤ n ∧ (i + blocks - oldTail) % 8 = 0) ∨
        (i ≤ newTail ∧ i % 8 = 0) := by
  induction count generalizing oldTail blocks fuel with
  | zero => omega
  | succ count ih =>
    obtain ⟨fuel, rfl⟩ : ∃ fuel', fuel = fuel' + 1 := ⟨fuel - 1, by omega⟩
    by_cases last : oldTail + 1 = n
    · obtain ⟨slots, ran, each⟩ := persistLoop_ahead n (show 0 < 8 by omega)
        (show 0 + newTail < n by omega) (show newTail ≤ fuel by omega)
      rw [Nat.zero_add] at ran
      refine ⟨(if blocks + 1 = 8 then [oldTail + 1] else []) ++ 0 :: slots, ?_, fun i => ?_⟩
      · rw [persistLoop, if_neg (by omega)]
        simp only
        rw [if_pos last, ran]
        rfl
      · rw [List.mem_append, List.mem_cons, each]
        split
        · simp only [List.mem_singleton]
          omega
        · simp only [List.not_mem_nil, false_or]
          omega
    · have full : (if blocks + 1 = 8 then 0 else blocks + 1) < 8 := by split <;> omega
      obtain ⟨slots, ran, each⟩ := ih full (show oldTail + 1 + count = n by omega) (by omega)
        (by omega) (show count + newTail ≤ fuel by omega)
      refine ⟨(if blocks + 1 = 8 then [oldTail + 1] else []) ++ slots, ?_, fun i => ?_⟩
      · rw [persistLoop, if_neg (by omega)]
        simp only
        rw [if_neg last, ran]
        rfl
      · rw [List.mem_append, each]
        split
        · simp only [List.mem_singleton]
          omega
        · simp only [List.not_mem_nil, false_or]
          omega

/-! ## Slots and lines -/

/-- Of `count` slots from `tail` on: those before the end of the array. -/
def before (n tail count : Nat) : Nat := min count (n - tail)

/-- And those from its start on. -/
def after (n tail count : Nat) : Nat := count - before n tail count

theorem mem_writtenSlots {i : Nat} (inside : tail < n) (few : count ≤ n) :
    i ∈ writtenSlots n count tail ↔
      (tail ≤ i ∧ i < tail + before n tail count) ∨ i < after n tail count := by
  unfold after before
  induction count generalizing tail with
  | zero => simp [writtenSlots]
  | succ count ih =>
    rw [writtenSlots, List.mem_cons]
    by_cases last : tail + 1 = n
    · rw [if_pos last, ih (by omega) (by omega)]
      omega
    · rw [if_neg last, ih (by omega) (by omega)]
      omega

section Lines

variable {n base : Nat}

variable {j : Nat}

/-- A slot lies in one line: the data starts two slots into the line of `base`. -/
theorem lineOf_slot (aligned : lineBytes ∣ base) (i : Nat) (short : j < 8) :
    lineOf lineBytes (slotAddr base i + j) = lineOf lineBytes base + (i + 2) / 8 := by
  have split : slotAddr base i + j = base + (16 + 8 * i + j) := by
    unfold slotAddr
    omega
  rw [split, lineOf_add aligned]
  unfold lineOf lineBytes
  omega

theorem lineOf_head (aligned : lineBytes ∣ base) (short : j < 8) :
    lineOf lineBytes (headAddr base + j) = lineOf lineBytes base := by
  rw [headAddr, Nat.add_assoc, lineOf_add aligned]
  unfold lineOf lineBytes
  omega

/-- What flushing some slots and `*log` reaches, by the number of the line behind `base`. -/
theorem writtenBack_slots (aligned : lineBytes ∣ base) {slots : List Nat} {b l : Nat}
    (line : lineOf lineBytes b = lineOf lineBytes base + l) :
    WrittenBack lineBytes (slots.map (slotAddr base) ++ [headAddr base]) b ↔
      (∃ i ∈ slots, (i + 2) / 8 = l) ∨ l = 0 := by
  have slot : ∀ i, lineOf lineBytes (slotAddr base i) = lineOf lineBytes base + (i + 2) / 8 :=
    fun i => lineOf_slot aligned i (show 0 < 8 by omega)
  have head : lineOf lineBytes (headAddr base) = lineOf lineBytes base :=
    lineOf_head aligned (show 0 < 8 by omega)
  unfold WrittenBack
  rw [line]
  constructor
  · rintro ⟨a, member, same⟩
    rcases List.mem_append.mp member with one | last
    · obtain ⟨i, at_, rfl⟩ := List.mem_map.mp one
      rw [slot] at same
      exact Or.inl ⟨i, at_, by omega⟩
    · rw [List.mem_singleton.mp last, head] at same
      exact Or.inr (by omega)
  · rintro (⟨i, at_, rfl⟩ | rfl)
    · exact ⟨_, List.mem_append_left _ (List.mem_map_of_mem at_), slot i⟩
    · exact ⟨_, List.mem_append_right _ List.mem_cons_self, head⟩

variable {tail count : Nat}

/-- The slots whose lines `log_persist` flushes: every eighth before the end of the array, and every
eighth from its start on when it comes round. -/
theorem persistLoop_slots {newTail fuel : Nat} (inside : tail < n) (few : count < n)
    (stop : newTail = if tail + count < n then tail + count else tail + count - n)
    (enough : count ≤ fuel) :
    ∃ slots, persistLoop n newTail fuel tail 0 = some slots ∧
      ∀ i, i ∈ tail :: slots ↔
        (tail ≤ i ∧ i ≤ tail + before n tail count ∧ (i - tail) % 8 = 0) ∨
          (n ≤ tail + count ∧ i ≤ after n tail count ∧ i % 8 = 0) := by
  unfold after before
  split at stop
  · rename_i straight
    obtain ⟨slots, ran, each⟩ := persistLoop_ahead n (show 0 < 8 by omega) straight enough
    refine ⟨slots, stop ▸ ran, fun i => ?_⟩
    rw [List.mem_cons, each]
    omega
  · rename_i wraps
    obtain ⟨slots, ran, each⟩ := persistLoop_around n (show 0 < 8 by omega)
      (show tail + (n - tail) = n by omega) (by omega) (show newTail < tail by omega)
      (show n - tail + newTail ≤ fuel by omega)
    refine ⟨slots, ran, fun i => ?_⟩
    rw [List.mem_cons, each]
    omega

/-- The lines `log_persist` flushes: as many behind the first as there are full eights before the
end of the array, and as many from the start as there are full eights behind the wrap. -/
theorem persistLoop_lines {newTail fuel : Nat} (inside : tail < n) (few : count < n)
    (stop : newTail = if tail + count < n then tail + count else tail + count - n)
    (enough : count ≤ fuel) :
    ∃ slots, persistLoop n newTail fuel tail 0 = some slots ∧
      ∀ l, ((∃ i ∈ tail :: slots, (i + 2) / 8 = l) ∨ l = 0) ↔
        ((tail + 2) / 8 ≤ l ∧ 8 * (l - (tail + 2) / 8) ≤ before n tail count) ∨
          8 * l ≤ after n tail count := by
  obtain ⟨slots, ran, each⟩ := persistLoop_slots inside few stop enough
  refine ⟨slots, ran, fun l => ?_⟩
  have straight : tail + count < n → after n tail count = 0 := by
    unfold after before
    omega
  constructor
  · rintro (⟨i, member, rfl⟩ | rfl)
    · rw [each] at member
      omega
    · omega
  · rintro (⟨low, high⟩ | low)
    · refine Or.inl ⟨tail + 8 * (l - (tail + 2) / 8), ?_, by omega⟩
      rw [each]
      omega
    · by_cases wraps : n ≤ tail + count
      · refine Or.inl ⟨8 * l, ?_, by omega⟩
        rw [each]
        omega
      · exact Or.inr (by omega)

/-- The slots written from `tail` on reach into no line that is left out: before the end of the
array their last line is at most as many lines on as they have full eights, and so it is from the
start of the array on, unless that line is the one of `tail`. -/
def WellPlaced (n tail count : Nat) : Prop :=
  (tail + 2) % 8 + before n tail count % 8 ≤ 8 ∧
    (after n tail count % 8 ≠ 7 ∨ tail ≤ after n tail count + 6)

/-- The written lines against the flushed ones. -/
theorem wellPlaced_iff (inside : tail < n) (few : count < n) (some_ : 0 < count) :
    (∀ i ∈ writtenSlots n count tail,
      ((tail + 2) / 8 ≤ (i + 2) / 8 ∧ 8 * ((i + 2) / 8 - (tail + 2) / 8) ≤ before n tail count) ∨
        8 * ((i + 2) / 8) ≤ after n tail count) ↔ WellPlaced n tail count := by
  have positive : 0 < before n tail count := by
    unfold before
    omega
  have behind : after n tail count < tail ∨ after n tail count = 0 := by
    unfold after before
    omega
  simp only [mem_writtenSlots inside (le_of_lt few)]
  unfold WellPlaced
  generalize before n tail count = c at *
  generalize after n tail count = d at *
  constructor
  · intro all
    have first := all (tail + c - 1) (by omega)
    refine ⟨by omega, ?_⟩
    by_cases none_ : d = 0
    · omega
    · have second := all (d - 1) (by omega)
      omega
  · rintro ⟨one, two⟩ i (⟨low, high⟩ | low)
    · omega
    · omega

end Lines

/-- **Durability of the slots.**  After any successful calls of `log_offer`, `log_persist` ends and
has flushed the line of `head` and `tail`; it has flushed the line of every slot written exactly
when the slots are well placed. -/
theorem slots_flushed_iff {n base : Nat} (aligned : lineBytes ∣ base) {log log' : CircularLog P}
    (head : log.head < n) (inside : log.tail < n) {pkts : List P} (some_ : pkts ≠ []) {newTail : Nat}
    (offered : offerLoop n pkts log log.tail = some (log', newTail)) {fuel : Nat}
    (enough : pkts.length ≤ fuel) :
    ∃ flushed, log'.logPersistFlushes n base fuel newTail = some flushed ∧
      RangeWrittenBack lineBytes flushed (headAddr base) 8 ∧
      ((∀ i ∈ writtenSlots n pkts.length log.tail,
          RangeWrittenBack lineBytes flushed (slotAddr base i) 8) ↔
        WellPlaced n log.tail pkts.length) := by
  obtain ⟨room, stop⟩ := offerLoop_tail head inside offered
  have few : pkts.length < n := by
    split at room <;> omega
  have positive : 0 < pkts.length := List.length_pos_iff.mpr some_
  obtain ⟨slots, ran, lines⟩ := persistLoop_lines inside few stop enough
  have same : log'.tail = log.tail := by rw [offerLoop_writes offered]
  refine ⟨(log.tail :: slots).map (slotAddr base) ++ [headAddr base], ?_, ?_, ?_⟩
  · rw [logPersistFlushes, same, ran]
    rfl
  · intro b low high
    obtain ⟨j, rfl⟩ := Nat.exists_eq_add_of_le low
    exact (writtenBack_slots aligned (lineOf_head aligned (by omega))).mpr (Or.inr rfl)
  · rw [← wellPlaced_iff inside few positive]
    apply forall₂_congr
    intro i _
    rw [← lines]
    constructor
    · intro range
      exact (writtenBack_slots aligned (lineOf_slot aligned i (show 0 < 8 by omega))).mp
        (range _ (le_refl _) (by omega))
    · intro line b low high
      obtain ⟨j, rfl⟩ := Nat.exists_eq_add_of_le low
      exact (writtenBack_slots aligned (lineOf_slot aligned i (by omega))).mpr line

/-- An empty log of 32 slots whose next free slot is `tail`. -/
def emptyAt (tail : Nat) : CircularLog Nat := ⟨tail, tail, fun _ => 0⟩

/-- Two slots from the start of the array. -/
theorem slots_flushed_start : ∃ flushed,
    (emptyAt 0).logPersistFlushes 32 4096 2 2 = some flushed ∧
    RangeWrittenBack lineBytes flushed (slotAddr 4096 0) 8 ∧
    RangeWrittenBack lineBytes flushed (slotAddr 4096 1) 8 := by
  have aligned : lineBytes ∣ 4096 := by decide
  obtain ⟨flushed, ran, -, placed⟩ := slots_flushed_iff aligned
    (show (emptyAt 0).head < 32 by decide) (by decide) (show [7, 8] ≠ [] by decide)
    (show offerLoop 32 [7, 8] (emptyAt 0) 0 = some (_, 2) from rfl) (le_refl 2)
  have each := placed.mpr ⟨by decide, by decide⟩
  exact ⟨flushed, ran, each 0 (by decide), each 1 (by decide)⟩

/-- Slots 5 and 6: the flushes reach the line of slot 5 only. -/
theorem slot_unflushed :
    (offerLoop 32 [7, 8] (emptyAt 5) 5).map Prod.snd = some 7 ∧
    6 ∈ writtenSlots 32 2 5 ∧
    (emptyAt 5).logPersistFlushes 32 4096 2 7 = some [slotAddr 4096 5, headAddr 4096] ∧
    ¬ WrittenBack lineBytes [slotAddr 4096 5, headAddr 4096] (slotAddr 4096 6) := by
  refine ⟨by decide, by decide, by decide, ?_⟩
  rintro ⟨a, member, same⟩
  simp only [List.mem_cons, List.not_mem_nil, or_false] at member
  rcases member with rfl | rfl
  · exact absurd same (by decide)
  · exact absurd same (by decide)

end CircularLog

/-! ## The packets -/

/-- `rte_mbuf`: where it lies, and its buffer with the data in it. -/
structure Mbuf where
  addr : Nat
  bufAddr : Nat
  dataOff : Nat
  dataLen : Nat
deriving DecidableEq, Repr

/-- `flush_clwb`. -/
def flushClwb (addr len : Nat) : List Nat := flushRange lineBytes addr len

/-- `persist_mbuf`, for headers of `size` bytes: the addresses written back. -/
def persistMbuf (size : Nat) : List Mbuf → List Nat
  | [] => []
  | m :: chain => flushClwb m.addr size ++ (flushClwb m.bufAddr m.dataLen ++ persistMbuf size chain)

namespace Mbuf

/-- `rte_pktmbuf_mtod`. -/
def data (m : Mbuf) : Nat := m.bufAddr + m.dataOff

/-- Every header of the chain and every byte of its data is in a line that was written back. -/
def Persisted (size : Nat) (chain : List Mbuf) : Prop :=
  ∀ m ∈ chain, RangeWrittenBack lineBytes (persistMbuf size chain) m.addr size ∧
    RangeWrittenBack lineBytes (persistMbuf size chain) m.data m.dataLen

/-- The last byte of the data is in the line of the last of the first `data_len` bytes of the
buffer. -/
def EndsEarly (m : Mbuf) : Prop :=
  m.dataLen = 0 ∨
    lineOf lineBytes (m.data + m.dataLen - 1) = lineOf lineBytes (m.bufAddr + m.dataLen - 1)

/-- No header of the chain and no other segment shares a line with the segment's data. -/
def Apart (size : Nat) (chain : List Mbuf) : Prop :=
  ∀ m ∈ chain, ∀ b, m.data ≤ b → b < m.data + m.dataLen → ∀ m' ∈ chain,
    ¬ WrittenBack lineBytes (flushClwb m'.addr size) b ∧
    (m' ≠ m → ¬ WrittenBack lineBytes (flushClwb m'.bufAddr m'.dataLen) b)

variable {chain : List Mbuf}

theorem writtenBack_persistMbuf {size b : Nat} :
    WrittenBack lineBytes (persistMbuf size chain) b ↔ ∃ m ∈ chain,
      WrittenBack lineBytes (flushClwb m.addr size) b ∨
        WrittenBack lineBytes (flushClwb m.bufAddr m.dataLen) b := by
  induction chain with
  | nil => simp [persistMbuf, WrittenBack]
  | cons m chain ih =>
    rw [persistMbuf, writtenBack_append, writtenBack_append, ih, ← or_assoc]
    simp

theorem writtenBack_flushClwb (addr len b : Nat) :
    WrittenBack lineBytes (flushClwb addr len) b ↔
      lineOf lineBytes addr ≤ lineOf lineBytes b ∧ lineOf lineBytes b * lineBytes < addr + len :=
  writtenBack_flushRange (by decide) addr len b

variable {m : Mbuf}

/-- A segment that ends early is reached by the flush of its own buffer. -/
theorem EndsEarly.reached (early : m.EndsEarly) :
    RangeWrittenBack lineBytes (flushClwb m.bufAddr m.dataLen) m.data m.dataLen := by
  intro b low high
  rw [writtenBack_flushClwb]
  rcases early with none_ | same
  · omega
  · unfold data lineOf lineBytes at *
    omega

/-- And no other one is. -/
theorem endsEarly_of_reached (some_ : 0 < m.dataLen)
    (reached : WrittenBack lineBytes (flushClwb m.bufAddr m.dataLen) (m.data + m.dataLen - 1)) :
    m.EndsEarly := by
  rw [writtenBack_flushClwb] at reached
  unfold EndsEarly data lineOf lineBytes at *
  omega

theorem header_persisted (size : Nat) (member : m ∈ chain) :
    RangeWrittenBack lineBytes (persistMbuf size chain) m.addr size := by
  intro b low high
  have own := rangeWrittenBack_flushRange (show 0 < lineBytes by decide) m.addr size b low high
  exact writtenBack_persistMbuf.mpr ⟨m, member, Or.inl own⟩

/-- **Durability of the data.**  The headers are always written back; the data of a chain is, if
every segment ends early, and only then where segments and headers share no lines. -/
theorem data_persisted (size : Nat) (chain : List Mbuf) :
    (∀ m ∈ chain, RangeWrittenBack lineBytes (persistMbuf size chain) m.addr size) ∧
    ((∀ m ∈ chain, m.EndsEarly) → Persisted size chain) ∧
    (Apart size chain → Persisted size chain → ∀ m ∈ chain, m.EndsEarly) := by
  refine ⟨fun m member => header_persisted size member, ?_, ?_⟩
  · intro early m member
    refine ⟨header_persisted size member, fun b low high => ?_⟩
    have own := (early m member).reached b low high
    exact writtenBack_persistMbuf.mpr ⟨m, member, Or.inr own⟩
  · intro apart persisted m member
    rcases Nat.eq_zero_or_pos m.dataLen with none_ | some_
    · exact Or.inl none_
    · apply endsEarly_of_reached some_
      have last := (persisted m member).2 (m.data + m.dataLen - 1) (by omega) (by omega)
      obtain ⟨m', member', header | buffer⟩ := writtenBack_persistMbuf.mp last
      · exact absurd header (apart m member _ (by omega) (by omega) m' member').1
      · by_cases other : m' = m
        · exact other ▸ buffer
        · exact absurd buffer ((apart m member _ (by omega) (by omega) m' member').2 other)

/-- Data at the very start of its buffer. -/
theorem data_persisted_flush : Persisted 128 [⟨0, 128, 0, 100⟩, ⟨4096, 4224, 0, 1500⟩] :=
  (data_persisted 128 _).2.1 (by
    intro m member
    simp only [List.mem_cons, List.not_mem_nil, or_false] at member
    rcases member with rfl | rfl
    · exact Or.inr (by decide)
    · exact Or.inr (by decide))

/-- One packet of 100 bytes behind the usual headroom of 128: none of its data is written back. -/
theorem data_unpersisted :
    persistMbuf 128 [⟨0, 128, 128, 100⟩] = [0, 64, 128, 192] ∧
    (⟨0, 128, 128, 100⟩ : Mbuf).data = 256 ∧ ¬ Persisted 128 [⟨0, 128, 128, 100⟩] := by
  refine ⟨by decide, by decide, fun persisted => ?_⟩
  obtain ⟨-, data⟩ := persisted ⟨0, 128, 128, 100⟩ List.mem_cons_self
  obtain ⟨a, member, same⟩ := data 256 (by decide) (by decide)
  have low : ∀ a ∈ persistMbuf 128 [⟨0, 128, 128, 100⟩], lineOf lineBytes a ≠ 4 := by decide
  exact low a member same

end Mbuf

end Cyclone.Core
