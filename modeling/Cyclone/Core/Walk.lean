/-
# Core.Walk — what the header of a client's RPC decides

`__raft_logentry_offer_batch` goes through the segments of an entry from RPC to RPC by the
`payload_sz` of each header, and hands every RPC to the cores of its `core_mask`.  `accept` hands
stability checks and reads to a core itself, after it looked up the client's counter by `client_id`.
The same fields index the arrays again when an executor finishes the RPC.  All of them are the
client's: `bad` asks for one byte behind the network headers, and of the masks only one with several
bits in the first header of a packet is compared with the number of cores.

`walk_ends_iff` says which packets the walk goes through to the end, on the leader and on a
follower; `accesses_in_range_iff` for which fields every index is in range.
-/
import Cyclone.Core.Chain
import Cyclone.Theory.Traversal
import Mathlib.Algebra.Order.Group.Nat

namespace Cyclone.Core

open Cyclone.Theory

set_option autoImplicit false

/-! ## The end of the walk -/

/-- The loop over a segment ends, and each header it reads lies in the segment. -/
def WalkEnds (segment : Buffer UInt8) : Prop := segment.Traversed sizeofRpc payloadSz

/-- The loop comes to an RPC with `payload_sz` of -52 or less, which sends it back, or keeps it where
it is. -/
def WalkTurnsBack (segment : Buffer UInt8) : Prop := segment.TurnsBack sizeofRpc payloadSz

/-- RPC after RPC: each with its whole header, and `payload_sz` above -52; the payload of the last
may be cut. -/
def Rpcs (piece : List UInt8) : Prop := Records sizeofRpc payloadSz piece

/-- The segment in front of a multi-core RPC has nothing to walk. -/
theorem headOnly_pointAt (k : Nat) : headOnly.pointAt sizeofRpc payloadSz k = none :=
  pointAt_stays_none (k := 0) rfl (Nat.zero_le k)

theorem walkEnds_headOnly : WalkEnds headOnly ∧ ¬ WalkTurnsBack headOnly := by
  refine ⟨⟨⟨0, rfl⟩, fun k p at_ => ?_⟩, ?_⟩
  · rw [headOnly_pointAt] at at_
    cases at_
  · rintro ⟨k, p, at_, -⟩
    rw [headOnly_pointAt] at at_
    cases at_

theorem walkEnds_chain_iff {chain : List (Buffer UInt8)} {pieces : List (List UInt8)}
    (held : List.Forall₂ Buffer.Holds chain pieces) :
    (∀ segment ∈ chain, WalkEnds segment ∧ ¬ WalkTurnsBack segment) ↔ ∀ piece ∈ pieces, Rpcs piece := by
  induction held with
  | nil => simp
  | cons holds _ ih =>
    rw [List.forall_mem_cons, List.forall_mem_cons, ih]
    exact and_congr_left' (traversed_iff holds)

variable {cells : List UInt8}

/-- What the client library sends is one RPC. -/
theorem rpcs_of_fillsPacket (fills : FillsPacket cells) : Rpcs cells := by
  have long := long_of_fillsPacket fills
  obtain ⟨nonneg, length⟩ := fills
  have header : sizeofRpc = 52 := rfl
  refine .cons long (by omega) ?_
  rw [List.drop_eq_nil_of_le (by omega)]
  exact .nil

/-- The header of an RPC of term 1 for core 0 with `payload_sz` -52. -/
def standingHeader : List UInt8 :=
  [1, 0, 0, 0] ++ [0, 0, 0, 0] ++ [204, 255, 255, 255] ++ [1, 0, 0, 0, 0, 0, 0, 0] ++
    List.replicate 12 0 ++ [1, 0, 0, 0] ++ List.replicate 16 0

def standing : Buffer UInt8 := Buffer.ofCells standingHeader

/-- A packet of eight bytes that is the start of the header of an RPC for core 0, if the next bytes
of memory happen to name core 0 and term 1. -/
def stub : Buffer UInt8 := ⟨(Buffer.ofCells (clientHeader 0)).mem, 8⟩

theorem standing_pointAt (k : Nat) : standing.pointAt sizeofRpc payloadSz k = some 0 := by
  induction k with
  | zero => rfl
  | succ k ih =>
    rw [Buffer.pointAt, ih]
    rfl

/-- `__builtin_ffsl(mask) - 1`: the lowest bit of an `unsigned long`, -1 if there is none. -/
def firstCore (mask : Nat) : Int :=
  match (List.range 64).find? mask.testBit with
  | some core => core
  | none => -1

/-- The loop `while(core_mask != 0)`, which clears the lowest bit in every turn. -/
def coresFrom : Nat → Nat → List Int
  | 0, _ => []
  | turns + 1, mask =>
    if mask = 0 then []
    else firstCore mask ::
      coresFrom turns (mask &&& (2 ^ 64 - (2 ^ (firstCore mask).toNat + 1)))

def coresOf (mask : Nat) : List Int := coresFrom 64 mask

/-- `core_to_quorum`, with `num_quorums` 1. -/
def coreToQuorum (core : Int) : Int := core % 1

section Masks

variable {mask : Nat}

theorem testBit_high {n i : Nat} (small : mask < 2 ^ n) (high : n ≤ i) : mask.testBit i = false :=
  Nat.testBit_lt_two_pow (lt_of_lt_of_le small (Nat.pow_le_pow_right (by decide) high))

theorem firstCore_spec (small : mask < 2 ^ 64) (some_ : mask ≠ 0) :
    ∃ core : Nat, core < 64 ∧ firstCore mask = core ∧ mask.testBit core = true ∧
      ∀ i < core, mask.testBit i = false := by
  unfold firstCore
  cases found : (List.range 64).find? mask.testBit with
  | none =>
    obtain ⟨i, set_⟩ := Nat.exists_testBit_of_ne_zero some_
    have clear : mask.testBit i = false := by
      by_cases low : i < 64
      · simpa using List.find?_range_eq_none.mp found i low
      · exact testBit_high small (Nat.le_of_not_lt low)
    rw [clear] at set_
    cases set_
  | some core =>
    obtain ⟨set_, low, clear⟩ := List.find?_range_eq_some.mp found
    exact ⟨core, List.mem_range.mp low, rfl, set_, fun i lt => by simpa using clear i lt⟩

theorem firstCore_zero : firstCore 0 = -1 := rfl

/-- With the bits below `64 - turns` clear, the loop comes to every bit. -/
theorem mem_coresFrom {turns : Nat} (small : mask < 2 ^ 64)
    (high : ∀ i, mask.testBit i = true → 64 ≤ i + turns) (core : Int) :
    core ∈ coresFrom turns mask ↔ ∃ c : Nat, core = c ∧ mask.testBit c = true := by
  induction turns generalizing mask with
  | zero =>
    constructor
    · intro member
      cases member
    · rintro ⟨c, -, set_⟩
      have reach : 64 ≤ c := high c set_
      rw [testBit_high small reach] at set_
      cases set_
  | succ turns ih =>
    by_cases none_ : mask = 0
    · simp [coresFrom, none_]
    · obtain ⟨first, low, is, set_, below⟩ := firstCore_spec small none_
      have bits (i : Nat) : (mask &&& (2 ^ 64 - (2 ^ first + 1))).testBit i =
          (mask.testBit i && !decide (first = i)) := by
        rw [Nat.testBit_and, Nat.testBit_two_pow_sub_succ
          (Nat.pow_lt_pow_right (by decide) low), Nat.testBit_two_pow]
        by_cases narrow : i < 64
        · simp [narrow]
        · simp [testBit_high small (Nat.le_of_not_lt narrow)]
      have rest : mask &&& (2 ^ 64 - (2 ^ first + 1)) < 2 ^ 64 :=
        lt_of_le_of_lt Nat.and_le_left small
      rw [coresFrom, if_neg none_, is, List.mem_cons, Int.toNat_natCast, ih rest]
      · constructor
        · rintro (rfl | ⟨c, rfl, kept⟩)
          · exact ⟨first, rfl, set_⟩
          · rw [bits, Bool.and_eq_true] at kept
            exact ⟨c, rfl, kept.1⟩
        · rintro ⟨c, rfl, on⟩
          by_cases same : first = c
          · exact .inl (by rw [same])
          · exact .inr ⟨c, rfl, by rw [bits, on]; simp [same]⟩
      · intro i kept
        rw [bits, Bool.and_eq_true] at kept
        have other : first ≠ i := by simpa using kept.2
        have above : first < i := by
          by_contra le
          have clear := below i (by omega)
          rw [clear] at kept
          cases kept.1
        have reach := high first set_
        omega

theorem mem_coresOf (small : mask < 2 ^ 64) (core : Int) :
    core ∈ coresOf mask ↔ ∃ c : Nat, core = c ∧ mask.testBit c = true :=
  mem_coresFrom small (fun _ _ => Nat.le_add_left _ _) core

/-- Every core of the mask is one of the first `n` exactly when the mask is below `2 ^ n`. -/
theorem coresOf_lt_iff (small : mask < 2 ^ 64) (n : Nat) :
    (∀ core ∈ coresOf mask, 0 ≤ core ∧ core < n) ↔ mask < 2 ^ n := by
  constructor
  · intro inRange
    apply Nat.lt_pow_two_of_testBit
    intro i high
    by_contra set_
    rw [Bool.not_eq_false] at set_
    have bound := (inRange i ((mem_coresOf small i).mpr ⟨i, rfl, set_⟩)).2
    omega
  · intro below core member
    obtain ⟨c, rfl, set_⟩ := (mem_coresOf small core).mp member
    refine ⟨Int.natCast_nonneg c, ?_⟩
    by_contra high
    rw [testBit_high below (by omega)] at set_
    cases set_

/-- The lowest core is one of the first `n` exactly when one of these is in the mask. -/
theorem firstCore_lt_iff (small : mask < 2 ^ 64) (n : Nat) :
    (0 ≤ firstCore mask ∧ firstCore mask < n) ↔ mask % 2 ^ n ≠ 0 := by
  by_cases none_ : mask = 0
  · simp [none_, firstCore_zero]
  · obtain ⟨first, -, is, set_, below⟩ := firstCore_spec small none_
    rw [is]
    constructor
    · rintro ⟨-, low⟩ zero
      have bit := Nat.testBit_mod_two_pow mask n first
      rw [zero, set_, decide_eq_true (by omega : first < n)] at bit
      simp at bit
    · intro some_
      refine ⟨Int.natCast_nonneg first, ?_⟩
      obtain ⟨i, on⟩ := Nat.exists_testBit_of_ne_zero some_
      rw [Nat.testBit_mod_two_pow, Bool.and_eq_true, decide_eq_true_eq] at on
      by_contra high
      have clear := below i (by omega)
      rw [clear] at on
      cases on.2

/-- A mask with one bit has one core. -/
theorem coresOf_two_pow {k : Nat} (small : 2 ^ k < 2 ^ 64) : coresOf (2 ^ k) = [(k : Int)] := by
  obtain ⟨first, low, is, set_, -⟩ := firstCore_spec small (Nat.two_pow_pos k).ne'
  rw [Nat.testBit_two_pow, decide_eq_true_eq] at set_
  subst set_
  have cleared : 2 ^ k &&& (2 ^ 64 - (2 ^ k + 1)) = 0 := by
    apply Nat.eq_of_testBit_eq
    intro i
    rw [Nat.testBit_and, Nat.testBit_two_pow_sub_succ small, Nat.testBit_two_pow]
    by_cases same : k = i
    · simp [same]
    · simp [same]
  rw [coresOf, coresFrom, if_neg (Nat.two_pow_pos k).ne', is, Int.toNat_natCast, cleared]
  rfl

end Masks

/-! ## Indices -/

/-- `MAX_CLIENTS`. -/
def maxClients : Nat := 1024 * 1024

def clientId (header : List UInt8) : Int := leInt (bytesAt header 20 4)

/-- An array and the index it is used with. -/
inductive Access where
  | toCores (core : Int)
  | coreStatus (core : Int)
  | clientInflight (client : Int)
deriving DecidableEq, Repr

def Access.InRange (executorThreads : Nat) : Access → Prop
  | .toCores core => 0 ≤ core ∧ core < executorThreads
  | .coreStatus core => 0 ≤ core ∧ core < executorThreads
  | .clientInflight client => 0 ≤ client ∧ client < maxClients

instance (executorThreads : Nat) : ∀ access : Access, Decidable (access.InRange executorThreads)
  | .toCores _ | .coreStatus _ | .clientInflight _ => inferInstanceAs (Decidable (_ ∧ _))

section Uses

variable (header : List UInt8)

/-- `exec` comes to `exec_rpc_internal` or `exec_rpc_internal_ro`, where a multi-core RPC meets the
other cores. -/
def callsBack : Bool :=
  rpcCode header ≠ 2 ∧ rpcCode header ≠ 0 ∧
    (rpcFlags header &&& 1 ≠ 0 ∨ rpcCode header ≠ 4 ∧ rpcCode header ≠ 5)

/-- The counter goes with this core: the only one, or the first. -/
def counts (core : Int) : Bool := !isMulticore header || core = firstCore (coreMask header)

/-- `executor_st::operator()` with an RPC from the ring of this core. -/
def executorAccesses (core : Int) : List Access :=
  [.coreStatus core] ++
    (if isMulticore header ∧ callsBack header then [.coreStatus (firstCore (coreMask header))]
      else []) ++
    if counts header core then [.clientInflight (clientId header)] else []

/-- An RPC that the walk comes to, with what the executors do with it. -/
def walkAccesses : List Access :=
  ((coresOf (coreMask header)).filter fun core => coreToQuorum core = 0).flatMap fun core =>
    (if counts header core then [.clientInflight (clientId header)] else []) ++
      [.toCores core] ++ executorAccesses header core

/-- An RPC that `accept` hands to a core. -/
def directAccesses : List Access :=
  [.clientInflight (clientId header), .toCores (firstCore (coreMask header))] ++
    executorAccesses header (firstCore (coreMask header))

end Uses

def Arrival.header (a : Arrival) : List UInt8 := a.packet.read 0 sizeofRpc

/-- `bad` lets the packet pass. -/
def Arrival.passes (a : Arrival) : Bool := !a.junk && a.packet.len ≠ 0

/-- `accept` hands a stability check or a read to a core; `leader` is the low bit of `snapshot`. -/
def handsOut (multicore : Bool) (currentTerm : Int) (leader : Bool) (a : Arrival) : Bool :=
  let header := a.header
  let term := if multicore then (leNat (a.packet.read sizeofRpc 4) : Int) else quorumTerm header
  (multicore ∨ a.passes ∧ ¬ a.busy ∧ ¬ isMulticore header) ∧ leader ∧
    (rpcCode header = 0 ∨ term = currentTerm ∧ rpcFlags header &&& 1 ≠ 0)

/-- The leader, or a follower that receives the entry, comes to an RPC with this header. -/
inductive Message.Meets (msg : Message) : List UInt8 → Prop
  | leader {k : Nat} {rpc : Frame.Record UInt8}
      (at_ : offered (msg.segments msg.chain) k = some rpc) : Meets msg rpc.header
  | follower {flat : Buffer UInt8} {k : Nat} {rpc : Frame.Record UInt8}
      (holds : flat.Holds msg.pieces.flatten) (at_ : offered [flat] k = some rpc) :
      Meets msg rpc.header

/-- What the packets of a burst index, from admission to the executors here and on the followers. -/
inductive Derived (multicore : Bool) (currentTerm : Int) (leader : Bool) (burst : List Arrival)
    (messages : List Message) : Access → Prop
  | admission {a : Arrival} (network : multicore = false) (member : a ∈ burst) (passes : a.passes) :
      Derived multicore currentTerm leader burst messages (.clientInflight (clientId a.header))
  | direct {a : Arrival} {access : Access} (member : a ∈ burst)
      (handed : handsOut multicore currentTerm leader a) (used : access ∈ directAccesses a.header) :
      Derived multicore currentTerm leader burst messages access
  | logged {msg : Message} {header : List UInt8} {access : Access} (member : msg ∈ messages)
      (met : msg.Meets header) (used : access ∈ walkAccesses header) :
      Derived multicore currentTerm leader burst messages access

def ClientInRange (header : List UInt8) : Prop := 0 ≤ clientId header ∧ clientId header < maxClients

/-- The fields of the headers are in range: `client_id` wherever it is used, and `core_mask` of an
RPC that is handed out directly has one of the cores, that of an RPC in the log no other. -/
structure FieldsInRange (multicore : Bool) (currentTerm : Int) (executorThreads : Nat)
    (leader : Bool) (burst : List Arrival) (messages : List Message) : Prop where
  admitted : multicore = false → ∀ a ∈ burst, a.passes → ClientInRange a.header
  handed : ∀ a ∈ burst, handsOut multicore currentTerm leader a →
    ClientInRange a.header ∧ coreMask a.header % 2 ^ executorThreads ≠ 0
  logged : ∀ msg ∈ messages, ∀ header, msg.Meets header →
    coreMask header < 2 ^ executorThreads ∧ (coreMask header ≠ 0 → ClientInRange header)

section Ranges

variable {header : List UInt8} {executorThreads : Nat}

theorem leNat_lt (bs : List UInt8) : leNat bs < 256 ^ bs.length := by
  induction bs with
  | nil => exact Nat.one_pos
  | cons b bs ih =>
    have byte := b.toNat_lt
    rw [leNat, List.length_cons, Nat.pow_succ]
    omega

theorem coreMask_lt (header : List UInt8) : coreMask header < 2 ^ 64 := by
  have short : (bytesAt header 12 8).length ≤ 8 := List.length_take_le 8 _
  calc coreMask header < 256 ^ (bytesAt header 12 8).length := leNat_lt _
    _ ≤ 256 ^ 8 := Nat.pow_le_pow_right (by decide) short
    _ = 2 ^ 64 := by decide

/-- An RPC that is not a multi-core one goes to one core at most. -/
theorem coresOf_single (single : isMulticore header = false) :
    (coresOf (coreMask header)).length ≤ 1 := by
  have small := coreMask_lt header
  by_cases none_ : coreMask header = 0
  · simp [none_, coresOf, coresFrom]
  · have less : (coreMask header + 2 ^ 64 - 1) % 2 ^ 64 = coreMask header - 1 := by omega
    have power : (coreMask header).isPowerOfTwo := by
      apply (Nat.and_sub_one_eq_zero_iff_isPowerOfTwo none_).mp
      rw [isMulticore, less, decide_eq_false_iff_not, not_not] at single
      exact single
    obtain ⟨k, is⟩ := power
    rw [is] at small ⊢
    rw [coresOf_two_pow small]
    exact Nat.le_refl 1

variable {access : Access}

/-- The accesses of a core that the counter goes with. -/
theorem executorAccesses_inRange {core : Int} (valid : 0 ≤ core ∧ core < executorThreads)
    (first : 0 ≤ firstCore (coreMask header) ∧ firstCore (coreMask header) < executorThreads)
    (client : ClientInRange header) (used : access ∈ executorAccesses header core) :
    access.InRange executorThreads := by
  unfold executorAccesses at used
  simp only [List.mem_append, List.mem_singleton] at used
  rcases used with (rfl | used) | used
  · exact valid
  · split at used
    · rw [List.mem_singleton.mp used]
      exact first
    · cases used
  · split at used
    · rw [List.mem_singleton.mp used]
      exact client
    · cases used

theorem directAccesses_inRange_iff :
    (∀ access ∈ directAccesses header, access.InRange executorThreads) ↔
      ClientInRange header ∧ coreMask header % 2 ^ executorThreads ≠ 0 := by
  rw [← firstCore_lt_iff (coreMask_lt header)]
  constructor
  · intro inRange
    exact ⟨inRange (.clientInflight (clientId header)) (by simp [directAccesses]),
      inRange (.toCores (firstCore (coreMask header))) (by simp [directAccesses])⟩
  · rintro ⟨client, core⟩ access used
    unfold directAccesses at used
    simp only [List.cons_append, List.nil_append, List.mem_cons] at used
    rcases used with rfl | rfl | used
    · exact client
    · exact core
    · exact executorAccesses_inRange core core client used

theorem firstCore_mem (some_ : coreMask header ≠ 0) :
    firstCore (coreMask header) ∈ coresOf (coreMask header) := by
  obtain ⟨first, -, is, set_, -⟩ := firstCore_spec (coreMask_lt header) some_
  exact (mem_coresOf (coreMask_lt header) _).mpr ⟨first, is, set_⟩

theorem mem_walkAccesses : access ∈ walkAccesses header ↔
    ∃ core ∈ coresOf (coreMask header),
      (counts header core = true ∧ access = .clientInflight (clientId header)) ∨
        access = .toCores core ∨ access ∈ executorAccesses header core := by
  have own (core : Int) : coreToQuorum core = 0 := Int.emod_one core
  simp only [walkAccesses, own, decide_true, List.filter_true, List.mem_flatMap, List.mem_append,
    List.mem_ite_nil_right, List.mem_singleton, or_assoc]

theorem walkAccesses_inRange_iff :
    (∀ access ∈ walkAccesses header, access.InRange executorThreads) ↔
      coreMask header < 2 ^ executorThreads ∧ (coreMask header ≠ 0 → ClientInRange header) := by
  rw [← coresOf_lt_iff (coreMask_lt header)]
  constructor
  · intro inRange
    refine ⟨fun core member => ?_, fun some_ => ?_⟩
    · exact inRange (.toCores core) (mem_walkAccesses.mpr ⟨core, member, .inr (.inl rfl)⟩)
    · refine inRange (.clientInflight (clientId header))
        (mem_walkAccesses.mpr ⟨_, firstCore_mem some_, .inl ⟨?_, rfl⟩⟩)
      simp [counts]
  · rintro ⟨cores, client⟩ access used
    obtain ⟨core, member, use⟩ := mem_walkAccesses.mp used
    have some_ : coreMask header ≠ 0 := by
      intro zero
      rw [zero] at member
      cases member
    rcases use with ⟨-, rfl⟩ | rfl | used
    · exact client some_
    · exact cores core member
    · exact executorAccesses_inRange (cores core member) (cores _ (firstCore_mem some_))
        (client some_) used

end Ranges

/-- An RPC of term 1 without payload. -/
def rpcHeader (code mask : UInt8) (client : List UInt8) : List UInt8 :=
  [code, 0, 0, 0] ++ List.replicate 8 0 ++ [mask, 0, 0, 0, 0, 0, 0, 0] ++ client ++
    List.replicate 8 0 ++ [1, 0, 0, 0] ++ List.replicate 16 0

def rpcPacket (code mask : UInt8) (client : List UInt8) : Arrival :=
  ⟨Buffer.ofCells (rpcHeader code mask client), false, false⟩

/-- The only RPC that leader and followers come to in an entry of one packet that it fills. -/
theorem meets_fillsPacket (fills : FillsPacket cells) {len : Nat} {header : List UInt8}
    (met : Message.Meets ⟨.normal, len, false, [Buffer.ofCells cells]⟩ header) :
    header = cells.take sizeofRpc := by
  have leads {k : Nat} {rpc : Frame.Record UInt8}
      (at_ : offered [Buffer.ofCells cells] k = some rpc) : rpc.header = cells.take sizeofRpc := by
    rw [offered, recordAt_single, Option.map_eq_some_iff] at at_
    obtain ⟨p, place, rfl⟩ := at_
    rw [(place_of_fillsPacket fills place).2, Buffer.record]
    exact read_ofCells (long_of_fillsPacket fills)
  have piece : bytes (Buffer.ofCells cells) = cells :=
    (read_ofCells (Nat.le_refl _)).trans (List.take_length ..)
  cases met with
  | leader at_ => exact leads at_
  | @follower flat k rpc holds at_ =>
    have framed : Theory.WellFramed sizeofRpc payloadSz [cells] :=
      ⟨framed_of_fillsPacket fills, fun _ => trivial⟩
    have alike := (records_agree_iff (by decide) [cells]).mpr framed [Buffer.ofCells cells] flat
      (.cons (Buffer.ofCells_holds cells) .nil) (by simpa [Message.pieces, piece] using holds) k
    exact leads (alike.trans at_)

end Cyclone.Core
