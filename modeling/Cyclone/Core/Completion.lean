/-
# Core.Completion — the packet that makes a node a voter

When a non-voting node has enough of the log, `__raft_has_sufficient_logs` builds an entry of type
ADD_NODE with the node's number behind the `rpc_t`, and adds up by hand how long the packet is.  A
follower that receives it looks for the `rpc_t` where `pktadj2rpc` says, goes from one to the next by
`payload_sz` as long as it is inside the packet, and calls raft with the node it finds behind each.

The sum of the builder has no `wal_entry_t` in it, which the readers count: the number is not among
the bytes that are sent.  `completion_promotes_iff` says when the follower makes the node a voter all
the same.
-/
import Cyclone.Core.Chain
import Cyclone.Raft.Log

namespace Cyclone.Core

open Cyclone.Theory
open Cyclone.Raft (LogType)

set_option autoImplicit false

/-! ## The layout -/

/-- `sizeof(wal_entry_t)`: four `int`s, or five and their padding in the build with `__COMMUTE`, and an
`unsigned long`. -/
def sizeofWal (commute : Bool) : Nat := if commute then 32 else 24

/-- `sizeof(cfg_change_t)`. -/
def sizeofCfgChange : Nat := 4

/-- The four bytes of an `int`. -/
def intBytes (n : Int) : List UInt8 :=
  (List.range 4).map fun i => UInt8.ofNat ((n % 2 ^ 32).toNat / 256 ^ i)

/-- The `int` at an address. -/
def intAt (memory : Int → UInt8) (a : Int) : Int :=
  leInt ((List.range 4).map fun i : Nat => memory (a + i))

theorem payloadSz_read (s : Buffer UInt8) (p : Int) :
    payloadSz (s.read p sizeofRpc) = intAt s.mem (p + 8) := by
  have field : ((List.range sizeofRpc).drop 8).take 4 = (List.range 4).map (8 + ·) := by decide
  unfold payloadSz bytesAt Buffer.read intAt
  rw [← List.map_drop, ← List.map_take, field, List.map_map]
  refine congrArg leInt (List.map_congr_left fun i _ => ?_)
  show s.mem (p + ((8 + i : Nat) : Int)) = s.mem (p + 8 + i)
  congr 1
  omega

variable {memory : Int → UInt8} {a : Int}

theorem intAt_congr {memory' : Int → UInt8} (same : ∀ x, a ≤ x → x < a + 4 → memory x = memory' x) :
    intAt memory a = intAt memory' a := by
  refine congrArg leInt (List.map_congr_left fun i below => same _ ?_ ?_)
  · omega
  · have := List.mem_range.mp below
    omega

/-- Putting bytes at an address. -/
def store (memory : Int → UInt8) (a : Int) (cells : List UInt8) : Int → UInt8 := fun x =>
  if a ≤ x ∧ x < a + cells.length then cells.getD (x - a).toNat 0 else memory x

theorem store_of_outside {x : Int} {cells : List UInt8} (outside : x < a ∨ a + cells.length ≤ x) :
    store memory a cells x = memory x :=
  if_neg (by omega)

/-! ## The two ends -/

section Packet

-- `headers` stands for `sizeof(ipv4_hdr) + sizeof(msg_t) + sizeof(msg_entry_t)`.
variable (headers : Nat) (commute : Bool)

/-- Where `pktadj2rpc` finds the `rpc_t`. -/
def pktadj2rpc : Int := headers + sizeofWal commute

/-- The packet `__raft_has_sufficient_logs` builds for a node, in a buffer with these bytes. -/
def completion (memory : Int → UInt8) (node : Int) : Buffer UInt8 where
  mem :=
    let rpc := pktadj2rpc headers commute
    -- RPC_REQ_NODEADDFINAL into `rpc->code`, and the node into `cfg->node`
    store (store memory rpc (intBytes 3)) (rpc + sizeofRpc) (intBytes node)
  len := headers + sizeofRpc + sizeofCfgChange

/-- The packet in the follower's buffer.  It has written the headers and the `wal_entry_t` itself,
and behind the packet lies what was there before. -/
def receive (packet : Buffer UInt8) (own : Int → UInt8) : Buffer UInt8 where
  mem := fun x => if pktadj2rpc headers commute ≤ x ∧ x < packet.len then packet.mem x else own x
  len := packet.len

end Packet

/-- `handle_cfg_change`: the call to raft for an entry of the type, with the node behind the `rpc_t`. -/
def handleCfgChange (type : LogType Unit) (s : Buffer UInt8) (chunk : Int) : Option (LogType Int) :=
  let node := intAt s.mem (chunk + sizeofRpc)
  match type with
  | .normal => none
  | .addNonvotingNode () => some (.addNonvotingNode node)
  | .addNode () => some (.addNode node)
  | .removeNode () => some (.removeNode node)

/-- The calls of `__raft_logentry_offer_batch` on a segment from `point` on, when the walk ends within
so many turns. -/
def cfgChanges (type : LogType Unit) (s : Buffer UInt8) : Nat → Int → Option (List (LogType Int))
  | 0, _ => none
  | turns + 1, point =>
    if point < s.len then
      (cfgChanges type s turns (s.next sizeofRpc payloadSz point)).map
        ((handleCfgChange type s point).toList ++ ·)
    else some []

/-- The follower calls `raft_add_node` with the node, once, and makes no other call. -/
def Promotes (headers : Nat) (commute : Bool) (memory own : Int → UInt8) (node : Int) : Prop :=
  let received := receive headers commute (completion headers commute memory node) own
  ∃ turns, cfgChanges (.addNode ()) received turns (pktadj2rpc headers commute) =
    some [.addNode node]

/-! ## What arrives -/

section Arrival

variable {headers : Nat} {commute : Bool} {memory own : Int → UInt8} {node : Int}

theorem sizeofWal_bounds (commute : Bool) : 4 ≤ sizeofWal commute ∧ sizeofWal commute ≤ 44 := by
  cases commute <;> decide

/-- The node's number lies behind the packet. -/
theorem receive_node : intAt (receive headers commute (completion headers commute memory node) own).mem
    (pktadj2rpc headers commute + sizeofRpc) =
      intAt own (pktadj2rpc headers commute + sizeofRpc) := by
  refine intAt_congr fun x low _ => if_neg ?_
  have := (sizeofWal_bounds commute).1
  simp only [pktadj2rpc, completion, sizeofRpc, sizeofCfgChange] at low ⊢
  omega

/-- The bytes of `payload_sz` are sent as they were in the leader's buffer. -/
theorem receive_payload :
    intAt (receive headers commute (completion headers commute memory node) own).mem
      (pktadj2rpc headers commute + 8) = intAt memory (pktadj2rpc headers commute + 8) := by
  refine intAt_congr fun x low high => ?_
  have := (sizeofWal_bounds commute).2
  have written : (intBytes 3).length = 4 := rfl
  refine (if_pos ?_).trans ?_
  · simp only [pktadj2rpc, completion, sizeofRpc, sizeofCfgChange] at low high ⊢
    omega
  · refine (store_of_outside ?_).trans (store_of_outside ?_)
    · exact Or.inl (by simp only [sizeofRpc]; omega)
    · exact Or.inr (by rw [written]; omega)

end Arrival

/-- A walk over an ADD_NODE entry makes a single call exactly when it comes to a single `rpc_t`. -/
theorem cfgChanges_single_iff {s : Buffer UInt8} {point node : Int} (inside : point < s.len) :
    (∃ turns, cfgChanges (.addNode ()) s turns point = some [.addNode node]) ↔
      intAt s.mem (point + sizeofRpc) = node ∧ s.len ≤ s.next sizeofRpc payloadSz point := by
  constructor
  · rintro ⟨turns, walked⟩
    cases turns with
    | zero => cases walked
    | succ turns =>
      rw [cfgChanges, if_pos inside] at walked
      obtain ⟨rest, later, made⟩ := Option.map_eq_some_iff.mp walked
      obtain ⟨named, rfl⟩ := List.cons.inj made
      refine ⟨LogType.addNode.inj named, Int.not_lt.mp fun again => ?_⟩
      cases turns with
      | zero => cases later
      | succ turns =>
        rw [cfgChanges, if_pos again] at later
        obtain ⟨_, _, none⟩ := Option.map_eq_some_iff.mp later
        cases none
  · rintro ⟨named, beyond⟩
    refine ⟨2, ?_⟩
    rw [cfgChanges, if_pos inside, cfgChanges, if_neg (Int.not_lt.mpr beyond)]
    show some [LogType.addNode _] = _
    rw [named]

/-- **Promotion over the wire.**  The follower makes the node a voter, once, exactly when its number
happens to lie in the follower's buffer behind the packet, and what the leader's buffer held where
`payload_sz` is takes the walk out of the packet. -/
theorem completion_promotes_iff (headers : Nat) (commute : Bool) (memory own : Int → UInt8)
    (node : Int) :
    Promotes headers commute memory own node ↔
      intAt own (pktadj2rpc headers commute + sizeofRpc) = node ∧
        4 ≤ sizeofWal commute + intAt memory (pktadj2rpc headers commute + 8) := by
  have bounds := sizeofWal_bounds commute
  unfold Promotes
  dsimp only
  rw [cfgChanges_single_iff, receive_node, Buffer.next, Buffer.sizeAt, payloadSz_read, receive_payload]
  · refine and_congr_right fun _ => ?_
    simp only [receive, completion, pktadj2rpc, sizeofRpc, sizeofCfgChange]
    omega
  · simp only [receive, completion, pktadj2rpc, sizeofRpc, sizeofCfgChange]
    omega

/-- With 100 bytes of headers and all buffers zeroed, the follower makes node 0 a voter, and not
node 3. -/
theorem completion_promotes_other : ¬Promotes 100 false (fun _ => 0) (fun _ => 0) 3 ∧
    ∃ turns, cfgChanges (.addNode ())
      (receive 100 false (completion 100 false (fun _ => 0) 3) fun _ => 0) turns 124 =
        some [.addNode 0] := by
  constructor
  · rintro ⟨turns, walked⟩
    have own := ((cfgChanges_single_iff (by decide)).mp ⟨turns, walked⟩).1
    exact absurd own (by decide)
  · exact ⟨2, by decide⟩

end Cyclone.Core
