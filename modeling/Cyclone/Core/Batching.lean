/-
# Core.Batching — the entries of a burst, in memory

`accept` builds its log entries in place.  A packet that passed the checks opens an entry, or its
`rte_mbuf` is linked behind the last one of the open entry and the lengths in the first one are
brought up to date; `messages`, `chain_size` and `chain_tail` keep what is needed for the next packet.
Here is the loop on the mbufs, with the counters of `Core.Inflight`, and on the pass over the
packets of other quorums, where the entry starts with a segment of its own for the headers.

The lists of `Core.Chain` are what the loop builds: `Holds.logged` follows a packet that goes into
the log, `Holds.passed` one that does not.
-/
import Cyclone.Core.Inflight
import Cyclone.Theory.Linked
import Mathlib.Algebra.GroupWithZero.Nat

namespace Cyclone.Core.Batching

open Cyclone.Theory
open Cyclone.Core.Inflight (bump maxInflight)

set_option autoImplicit false

/-! ## Packets -/

/-- An `rte_mbuf` of the loop: a packet of the array, or the head allocated for it. -/
inductive Ref where
  | pkt (place : Nat)
  | head (place : Nat)
deriving DecidableEq, Repr

def Ref.place : Ref → Nat
  | .pkt place => place
  | .head place => place

/-- `rte_mbuf`; `headroom` is the room before the data. -/
structure RteMbuf where
  headroom : Nat
  dataLen : Nat
  pktLen : Nat
  nbSegs : Nat
  next : Option Ref
deriving DecidableEq, Repr

/-- `rte_pktmbuf_adj`: nothing if the segment is shorter. -/
def RteMbuf.adj (m : RteMbuf) (len : Nat) : Option RteMbuf :=
  if m.dataLen < len then none
  else some { m with
    headroom := m.headroom + len, dataLen := m.dataLen - len, pktLen := m.pktLen - len }

/-- `rte_pktmbuf_prepend`: nothing if there is no room. -/
def RteMbuf.prepend (m : RteMbuf) (len : Nat) : Option RteMbuf :=
  if m.headroom < len then none
  else some { m with
    headroom := m.headroom - len, dataLen := m.dataLen + len, pktLen := m.pktLen + len }

/-- `sizeof(struct ether_hdr)` and `sizeof(struct ipv4_hdr)`. -/
def etherHdr : Nat := 14

def ipv4Hdr : Nat := 20

/-- The sizes of `msg_t`, `msg_entry_t` and `wal_entry_t`. -/
structure Sizes where
  msg : Nat
  entry : Nat
  wal : Nat

namespace Sizes

variable (h : Sizes)

def front : Nat := h.msg + h.entry + h.wal

/-- Where the `rpc_t` stands in a packet with its headers. -/
def offset : Nat := ipv4Hdr + h.front

def adjustHead (m : RteMbuf) : Option RteMbuf := (m.adj etherHdr).bind (·.prepend h.front)

def delAdjHeader (m : RteMbuf) : Option RteMbuf := m.adj h.offset

def addAdjHeader (m : RteMbuf) : Option RteMbuf := m.prepend h.offset

/-- `pktadj2rpcsz`. -/
def rpcsz (m : RteMbuf) : Int := m.dataLen - h.offset

end Sizes

/-- A packet of `pkt_array`, with the memory from its `rpc_t` on; `ipv4` and `magic` are the checks of
`bad` on the protocol and the source. -/
structure Received where
  mbuf : RteMbuf
  ipv4 : Bool
  magic : Bool
  mem : Int → UInt8

/-- The RPCs: behind the network headers, or all that another quorum sent on. -/
def Received.rpc (multicore : Bool) (p : Received) : Buffer UInt8 :=
  ⟨p.mem, if multicore then p.mbuf.dataLen else p.mbuf.dataLen - (etherHdr + ipv4Hdr)⟩

/-- `bad`. -/
def Received.bad (p : Received) : Bool :=
  !p.ipv4 || !p.magic || p.mbuf.dataLen ≤ etherHdr + ipv4Hdr || p.mbuf.next ≠ none

def Received.header (p : Received) : List UInt8 := (p.rpc false).read 0 sizeofRpc

/-! ## The checks -/

/-- What becomes of a packet: a core has it, the other pass, the log, nobody; or the process ends. -/
inductive Verdict where
  | dropped
  | forwarded
  | handed
  | logged
  | ended
deriving DecidableEq, Repr

/-- The terms and cores `accept` looks at, and the headroom of a new mbuf. -/
structure View where
  currentTerm : Int
  leader : Bool
  executorThreads : Nat
  poolHeadroom : Nat

/-- The tests of `accept`, in their order. -/
def verdict (multicore : Bool) (v : View) (a : Arrival) : Verdict :=
  let header := a.header
  let term := if multicore then (leNat (a.packet.read sizeofRpc 4) : Int) else quorumTerm header
  if multicore = false ∧ (a.junk ∨ a.packet.len = 0 ∨ a.busy) then .dropped
  else if multicore = false ∧ isMulticore header then
    if 2 ^ v.executorThreads - 1 < coreMask header then .ended else .forwarded
  else if rpcCode header = 0 then if v.leader then .handed else .dropped
  else if term ≠ v.currentTerm then .dropped
  else if rpcFlags header &&& 1 ≠ 0 then if v.leader then .handed else .dropped
  else .logged

/-- The packet as `Core.Chain` has it. -/
def Received.arrival (multicore : Bool) (inflight : Int → Int) (p : Received) : Arrival where
  packet := p.rpc multicore
  junk := !p.ipv4 || !p.magic || p.mbuf.next ≠ none
  busy := decide (maxInflight ≤ inflight (clientId p.header))

/-- The list model makes the same tests. -/
theorem acceptOne_verdict (multicore : Bool) (v : View) (messages : List Message) (a : Arrival) :
    acceptOne multicore v.currentTerm v.executorThreads messages a =
      match verdict multicore v a with
      | .ended => none
      | .logged => some (enter messages a.packet)
      | _ => some messages := by
  unfold acceptOne verdict
  dsimp only [Arrival.header]
  generalize (if multicore = true then _ else _) = term
  split
  · rfl
  · split
    · split <;> rfl
    · split
      · cases v.leader <;> rfl
      · split
        · rfl
        · split
          · cases v.leader <;> rfl
          · rfl

/-- So does the model of the machine. -/
theorem handsOut_iff (multicore : Bool) (v : View) (a : Arrival) :
    handsOut multicore v.currentTerm v.leader a = true ↔ verdict multicore v a = .handed := by
  unfold handsOut verdict
  dsimp only
  generalize (if multicore = true then _ else _) = term
  cases multicore <;> cases v.leader <;> simp [Arrival.passes] <;> grind

/-! ## The loop -/

/-- `msg_entry_t`, as `accept` fills it. -/
structure Slot where
  buf : Ref
  len : Int
  type : MsgType

structure Loop where
  accepted : Nat
  messages : Nat → Slot
  chainTail : Ref
  chainSize : Nat → Int
  mbufs : Ref → RteMbuf
  inflight : Int → Int

namespace Loop

def store (s : Loop) (r : Ref) (m : RteMbuf) : Loop :=
  { s with mbufs := Function.update s.mbufs r m }

/-- A new entry, with the last segment in it. -/
def openEntry (s : Loop) (slot : Slot) (last : Ref) : Loop :=
  { s with
    accepted := s.accepted + 1
    messages := Function.update s.messages s.accepted slot
    chainTail := last }

def setSize (s : Loop) (entry : Nat) (size : Int) : Loop :=
  { s with chainSize := Function.update s.chainSize entry size }

/-- "Chain to prev packet". -/
def chainOn (s : Loop) (r : Ref) (size : Int) : Loop :=
  let last := s.accepted - 1
  let slot := s.messages last
  let s := { s with messages := Function.update s.messages last { slot with len := slot.len + size } }
  let s := s.store s.chainTail { s.mbufs s.chainTail with next := some r }
  let s := { s with chainTail := r }
  let s := s.store slot.buf { s.mbufs slot.buf with
    nbSegs := (s.mbufs slot.buf).nbSegs + 1
    pktLen := (s.mbufs slot.buf).pktLen + (s.mbufs r).dataLen }
  s.setSize last (s.chainSize last + 1)

/-- The last entry takes another `size` bytes. -/
def hasRoom (s : Loop) (size : Int) : Bool :=
  0 < s.accepted ∧ (s.messages (s.accepted - 1)).len + size ≤ msgMaxsize ∧
    (s.messages (s.accepted - 1)).type = .normal ∧ s.chainSize (s.accepted - 1) < chainSz

/-- A packet that goes into the log. -/
def place (s : Loop) (h : Sizes) (v : View) (i : Nat) (header : List UInt8) : Option Loop :=
  let m := s.mbufs (.pkt i)
  let size := if isMulticore header then (m.dataLen : Int) else h.rpcsz m
  if rpcCode header = 5 then some (s.openEntry ⟨.pkt i, h.rpcsz m, .removeNode⟩ (.pkt i))
  else if rpcCode header = 4 then
    some (s.openEntry ⟨.pkt i, h.rpcsz m, .addNonvotingNode⟩ (.pkt i))
  else if s.hasRoom size then
    (if isMulticore header then some m else h.delAdjHeader m).map fun m =>
      (s.store (.pkt i) m).chainOn (.pkt i) size
  else if isMulticore header then
    (h.addAdjHeader ⟨v.poolHeadroom, 0, 0, 1, none⟩).map fun pre =>
      ((s.store (.head i) { pre with
        nbSegs := pre.nbSegs + 1
        pktLen := pre.pktLen + m.dataLen
        next := some (.pkt i) }).setSize s.accepted 2).openEntry ⟨.head i, size, .normal⟩ (.pkt i)
  else some ((s.setSize s.accepted 1).openEntry ⟨.pkt i, h.rpcsz m, .normal⟩ (.pkt i))

/-- The executors finished RPCs of these clients. -/
def finished (s : Loop) (clients : List Int) : Loop :=
  { s with inflight := clients.foldl (fun inflight client => bump inflight client (-1)) s.inflight }

/-- One turn of the loop; nothing when the process ends. -/
def acceptAt (multicore : Bool) (h : Sizes) (v : View) (i : Nat) (p : Received) (s : Loop) :
    Option Loop :=
  if multicore = false ∧ p.bad then some s
  else
    (if multicore then some (s.mbufs (.pkt i)) else h.adjustHead (s.mbufs (.pkt i))).bind fun m =>
      let s := s.store (.pkt i) m
      match verdict multicore v (p.arrival multicore s.inflight) with
      | .ended => none
      | .handed => some { s with inflight := bump s.inflight (clientId p.header) 1 }
      | .logged => s.place h v i p.header
      | .dropped | .forwarded => some s

/-- What earlier bursts left in the members of `cyclone_monitor`, and the counters. -/
structure Left where
  messages : Nat → Slot
  chainTail : Ref
  chainSize : Nat → Int
  inflight : Int → Int

/-- `memset(chain_size, 0, 2*PKT_BURST)` clears as many bytes, not integers. -/
def start (left : Left) (pktArray : Nat → Received) : Loop where
  accepted := 0
  messages := left.messages
  chainTail := left.chainTail
  chainSize := fun j => if j < 2 * Raft.pktBurst / 4 then 0 else left.chainSize j
  mbufs := fun
    | .pkt i => (pktArray i).mbuf
    | .head _ => ⟨0, 0, 0, 0, none⟩
  inflight := left.inflight

/-- `accept`, up to the call of `raft_recv_entry_batch`; `done i` are the clients of the RPCs finished
before packet `i` is looked at. -/
def accept (multicore : Bool) (h : Sizes) (v : View) (left : Left) (pktArray : Nat → Received)
    (done : Nat → List Int) : Nat → Option Loop
  | 0 => some (start left pktArray)
  | available + 1 =>
    (accept multicore h v left pktArray done available).bind fun s =>
      (s.finished (done available)).acceptAt multicore h v available (pktArray available)

end Loop

/-- The packets among the first `available` that pass the checks into the log, with the counters. -/
def logged (multicore : Bool) (v : View) (inflight : Int → Int) (pktArray : Nat → Received)
    (done : Nat → List Int) : Nat → (Int → Int) × List Nat
  | 0 => (inflight, [])
  | i + 1 =>
    let before := logged multicore v inflight pktArray done i
    let inflight := (done i).foldl (fun inflight client => bump inflight client (-1)) before.1
    match verdict multicore v ((pktArray i).arrival multicore inflight) with
    | .handed => (bump inflight (clientId (pktArray i).header) 1, before.2)
    | .logged => (inflight, before.2 ++ [i])
    | .dropped | .forwarded | .ended => (inflight, before.2)

/-! ## Entries in memory -/

/-- The segments of a message with the packets at these places. -/
def refsOf (msg : Message) (chain : List Nat) : List Ref :=
  (if msg.freshHead then (chain.head?.map Ref.head).toList else []) ++ chain.map .pkt

/-- The message `msg` of the list model, at `slot`, made of the packets at the places `chain`. -/
structure Stored (h : Sizes) (rpc : Nat → Buffer UInt8) (mbufs : Ref → RteMbuf) (slot : Slot)
    (size : Int) (msg : Message) (chain : List Nat) : Prop where
  packets : msg.chain = chain.map rpc
  type : slot.type = msg.type
  len : slot.len = msg.len
  size : msg.type = .normal → size = msg.chainSize
  buf : (refsOf msg chain).head? = some slot.buf
  linked : Linked (fun r => (mbufs r).next) (refsOf msg chain)
  nbSegs : (mbufs slot.buf).nbSegs = msg.chainSize
  pktLen : (mbufs slot.buf).pktLen = ((refsOf msg chain).map fun r => (mbufs r).dataLen).sum
  dataLen : ∀ k i, chain[k]? = some i → (mbufs (.pkt i)).dataLen =
    (rpc i).len + if k = 0 ∧ msg.freshHead = false then h.offset else 0

section Entries

variable {h : Sizes} {rpc : Nat → Buffer UInt8} {mbufs mbufs' : Ref → RteMbuf} {slot : Slot}
variable {size : Int} {msg : Message} {chain : List Nat}

@[simp] theorem append_freshHead (packet : Buffer UInt8) :
    (msg.append packet).freshHead = msg.freshHead := rfl

@[simp] theorem append_chain (packet : Buffer UInt8) :
    (msg.append packet).chain = msg.chain ++ [packet] := rfl

@[simp] theorem append_len (packet : Buffer UInt8) :
    (msg.append packet).len = msg.len + packet.len := rfl

@[simp] theorem append_chainSize (packet : Buffer UInt8) :
    (msg.append packet).chainSize = msg.chainSize + 1 := by
  show (msg.chain ++ [packet]).length + (if msg.freshHead then 1 else 0) = _
  rw [List.length_append, List.length_singleton, Message.chainSize]
  omega

theorem place_mem {r : Ref} (member : r ∈ refsOf msg chain) : r.place ∈ chain := by
  unfold refsOf at member
  rcases List.mem_append.mp member with front | packet
  · split at front
    · cases chain with
      | nil => simp at front
      | cons i chain =>
        simp at front
        rw [front]
        exact List.mem_cons_self
    · cases front
  · obtain ⟨i, at_, rfl⟩ := List.mem_map.mp packet
    exact at_

theorem refsOf_nodup (nodup : chain.Nodup) : (refsOf msg chain).Nodup := by
  have packets : (chain.map Ref.pkt).Nodup := nodup.map fun a b same => by cases same; rfl
  unfold refsOf
  split
  · cases chain with
    | nil => exact packets
    | cons i chain => simpa [List.nodup_cons] using packets
  · exact packets

theorem Stored.some_ (stored : Stored h rpc mbufs slot size msg chain) : chain ≠ [] := by
  rintro rfl
  have first := stored.buf
  unfold refsOf at first
  split at first <;> cases first

theorem Stored.buf_mem (stored : Stored h rpc mbufs slot size msg chain) :
    slot.buf ∈ refsOf msg chain :=
  List.mem_of_mem_head? stored.buf

/-- Other mbufs do not matter. -/
theorem Stored.frame (stored : Stored h rpc mbufs slot size msg chain)
    (same : ∀ r : Ref, r.place ∈ chain → mbufs' r = mbufs r) :
    Stored h rpc mbufs' slot size msg chain where
  packets := stored.packets
  type := stored.type
  len := stored.len
  size := stored.size
  buf := stored.buf
  linked := stored.linked.congr fun r member => by rw [same r (place_mem member)]
  nbSegs := by
    rw [same _ (place_mem stored.buf_mem)]
    exact stored.nbSegs
  pktLen := by
    rw [same _ (place_mem stored.buf_mem), stored.pktLen]
    refine congrArg List.sum (List.map_congr_left fun r member => ?_)
    rw [same r (place_mem member)]
  dataLen := by
    intro k i at_
    rw [same (.pkt i) (List.mem_of_getElem? at_)]
    exact stored.dataLen k i at_

theorem refsOf_snoc (some_ : chain ≠ []) (packet : Buffer UInt8) (i : Nat) :
    refsOf (msg.append packet) (chain ++ [i]) = refsOf msg chain ++ [.pkt i] := by
  cases chain with
  | nil => exact absurd rfl some_
  | cons k chain =>
    show (if msg.freshHead then [Ref.head k] else []) ++ (k :: chain ++ [i]).map .pkt = _
    simp [refsOf]

variable {k : Nat}

theorem refsOf_getLast (last : chain.getLast? = some k) :
    (refsOf msg chain).getLast? = some (.pkt k) := by
  obtain ⟨front, rfl⟩ := List.getLast?_eq_some_iff.mp last
  simp [refsOf, List.getLast?_append]

/-- Another packet is linked behind the last. -/
theorem Stored.snoc (stored : Stored h rpc mbufs slot size msg chain) {i : Nat}
    (nodup : chain.Nodup) (new : i ∉ chain) (last : chain.getLast? = some k)
    (next : ∀ r, (mbufs' r).next =
      if r = .pkt k then some (.pkt i) else if r = .pkt i then none else (mbufs r).next)
    (lens : ∀ r, (mbufs' r).dataLen = if r = .pkt i then (rpc i).len else (mbufs r).dataLen)
    (segs : (mbufs' slot.buf).nbSegs = (mbufs slot.buf).nbSegs + 1)
    (total : (mbufs' slot.buf).pktLen = (mbufs slot.buf).pktLen + (rpc i).len) :
    Stored h rpc mbufs' { slot with len := slot.len + (rpc i).len } (size + 1)
      (msg.append (rpc i)) (chain ++ [i]) := by
  have apart {r : Ref} (member : r ∈ refsOf msg chain) : r ≠ .pkt i := by
    rintro rfl
    exact new (place_mem member)
  have other : i ≠ k := by
    rintro rfl
    exact new (List.mem_of_getLast? last)
  have refs : refsOf (msg.append (rpc i)) (chain ++ [i]) = refsOf msg chain ++ [.pkt i] :=
    refsOf_snoc stored.some_ (rpc i) i
  refine ⟨?_, stored.type, ?_, ?_, ?_, ?_, ?_, ?_, ?_⟩
  · simp [stored.packets]
  · simp [stored.len]
  · intro normal
    rw [stored.size normal, append_chainSize]
    rfl
  · rw [refs, List.head?_append, stored.buf]
    rfl
  · rw [refs]
    refine stored.linked.snoc (refsOf_nodup nodup) (refsOf_getLast last) ?_ ?_ ?_
    · simp [next]
    · simp [next, other]
    · intro r member behind
      rw [next, if_neg behind, if_neg (apart member)]
  · show (mbufs' slot.buf).nbSegs = _
    rw [segs, stored.nbSegs, append_chainSize]
  · show (mbufs' slot.buf).pktLen = _
    rw [refs, List.map_append, List.sum_append, total, stored.pktLen]
    have same : (refsOf msg chain).map (fun r => (mbufs' r).dataLen) =
        (refsOf msg chain).map fun r => (mbufs r).dataLen :=
      List.map_congr_left fun r member => by rw [lens, if_neg (apart member)]
    rw [same, List.map_singleton, List.sum_singleton, lens, if_pos rfl]
  · intro j i' at_
    rw [lens]
    rcases Nat.lt_or_ge j chain.length with before | after
    · rw [List.getElem?_append_left before] at at_
      have member := List.mem_of_getElem? at_
      have differs : Ref.pkt i' ≠ .pkt i := by
        rintro ⟨⟩
        exact new member
      rw [if_neg differs]
      exact stored.dataLen j i' at_
    · rw [List.getElem?_append_right after] at at_
      have is : i' = i := by
        have one := List.mem_of_getElem? at_
        exact List.mem_singleton.mp one
      have later : j ≠ 0 := by
        have nonempty := List.length_pos_iff.mpr stored.some_
        omega
      simp [is, later]

end Entries

/-! ## The loop and the lists -/

/-- Before packet `i` the loop holds these messages, made of the packets at the places `chains`. -/
structure Holds (h : Sizes) (rpc : Nat → Buffer UInt8) (s : Loop) (i : Nat)
    (msgs : List Message) (chains : List (List Nat)) : Prop where
  count : msgs.length = s.accepted
  chained : chains.length = s.accepted
  stored : ∀ j msg chain, msgs[j]? = some msg → chains[j]? = some chain →
    Stored h rpc s.mbufs (s.messages j) (s.chainSize j) msg chain
  tail : ∀ chain k, chains.getLast? = some chain → chain.getLast? = some k → s.chainTail = .pkt k
  order : chains.flatten.Pairwise (· < ·)
  below : ∀ k ∈ chains.flatten, k < i

section Lists

variable {h : Sizes} {rpc : Nat → Buffer UInt8} {s t : Loop} {i : Nat}
variable {msgs : List Message} {chains : List (List Nat)}

variable {chain : List Nat}

theorem Holds.below_chain (holds : Holds h rpc s i msgs chains) (member : chain ∈ chains)
    {k : Nat} (in_ : k ∈ chain) : k < i :=
  holds.below k (List.mem_flatten.mpr ⟨chain, member, in_⟩)

/-- A turn that leaves the messages alone. -/
theorem Holds.passed (holds : Holds h rpc s i msgs chains) (accepted : t.accepted = s.accepted)
    (messages : t.messages = s.messages) (tail : t.chainTail = s.chainTail)
    (sizes : t.chainSize = s.chainSize)
    (same : ∀ r : Ref, r.place < i → t.mbufs r = s.mbufs r) {i' : Nat} (later : i ≤ i') :
    Holds h rpc t i' msgs chains where
  count := accepted ▸ holds.count
  chained := accepted ▸ holds.chained
  stored := by
    intro j msg chain at_ there
    rw [messages, sizes]
    exact (holds.stored j msg chain at_ there).frame fun r member =>
      same r (holds.below_chain (List.mem_of_getElem? there) member)
  tail := tail ▸ holds.tail
  order := holds.order
  below := fun k member => lt_of_lt_of_le (holds.below k member) later

theorem order_snoc (holds : Holds h rpc s i msgs chains) :
    (chains.flatten ++ [i]).Pairwise (· < ·) := by
  refine List.pairwise_append.mpr ⟨holds.order, List.pairwise_singleton _ _, ?_⟩
  intro k member i' one
  rw [List.mem_singleton.mp one]
  exact holds.below k member

theorem below_snoc (holds : Holds h rpc s i msgs chains) :
    ∀ k ∈ chains.flatten ++ [i], k < i + 1 := by
  intro k member
  rcases List.mem_append.mp member with old | new
  · exact Nat.lt_succ_of_lt (holds.below k old)
  · rw [List.mem_singleton.mp new]
    exact Nat.lt_succ_self i

variable {msg : Message}

/-- The packet opens an entry. -/
theorem Holds.opens (holds : Holds h rpc s i msgs chains) (accepted : t.accepted = s.accepted + 1)
    (messages : ∀ j, j < s.accepted → t.messages j = s.messages j)
    (sizes : ∀ j, j < s.accepted → t.chainSize j = s.chainSize j) (tail : t.chainTail = .pkt i)
    (same : ∀ r : Ref, r.place < i → t.mbufs r = s.mbufs r)
    (new : Stored h rpc t.mbufs (t.messages s.accepted) (t.chainSize s.accepted) msg [i]) :
    Holds h rpc t (i + 1) (msgs ++ [msg]) (chains ++ [[i]]) where
  count := by simp [accepted, holds.count]
  chained := by simp [accepted, holds.chained]
  stored := by
    intro j msg' chain at_ there
    rcases Nat.lt_or_ge j s.accepted with before | after
    · rw [List.getElem?_append_left (by rw [holds.count]; exact before)] at at_
      rw [List.getElem?_append_left (by rw [holds.chained]; exact before)] at there
      rw [messages j before, sizes j before]
      exact (holds.stored j msg' chain at_ there).frame fun r member =>
        same r (holds.below_chain (List.mem_of_getElem? there) member)
    · rw [List.getElem?_append_right (by rw [holds.count]; exact after)] at at_
      rw [List.getElem?_append_right (by rw [holds.chained]; exact after)] at there
      have at_end : j = s.accepted := by
        have bound := (List.getElem?_eq_some_iff.mp at_).1
        rw [holds.count, List.length_singleton] at bound
        omega
      subst at_end
      rw [List.mem_singleton.mp (List.mem_of_getElem? at_),
        List.mem_singleton.mp (List.mem_of_getElem? there)]
      exact new
  tail := by
    intro chain k last at_
    rw [List.getLast?_concat] at last
    cases last
    cases at_
    exact tail
  order := by
    rw [List.flatten_append, List.flatten_singleton]
    exact order_snoc holds
  below := by
    rw [List.flatten_append, List.flatten_singleton]
    exact below_snoc holds

/-- The last message and its packets. -/
theorem Holds.last {last : Message} (holds : Holds h rpc s i msgs chains) (there : msgs.getLast? = some last) :
    ∃ front before chain, msgs = front ++ [last] ∧ chains = before ++ [chain] ∧
      s.accepted = front.length + 1 ∧ before.length = front.length ∧
      Stored h rpc s.mbufs (s.messages front.length) (s.chainSize front.length) last chain := by
  obtain ⟨front, rfl⟩ := List.getLast?_eq_some_iff.mp there
  have count := holds.count
  have chained := holds.chained
  rw [List.length_append, List.length_singleton] at count
  obtain ⟨before, chain, rfl⟩ := List.eq_nil_or_concat' chains |>.resolve_left (by
    rintro rfl
    rw [List.length_nil] at chained
    omega)
  rw [List.length_append, List.length_singleton] at chained
  have lengths : before.length = front.length := by omega
  refine ⟨front, before, chain, rfl, rfl, count.symm, lengths, ?_⟩
  apply holds.stored
  · simp
  · rw [← lengths]
    simp

variable {front : List Message}

variable {last : Message}

/-- The packet is linked into the last entry. -/
theorem Holds.extends {before : List (List Nat)}
    (holds : Holds h rpc s i (front ++ [last]) (before ++ [chain]))
    (lengths : before.length = front.length) (accepted : t.accepted = s.accepted)
    (messages : ∀ j, j < front.length → t.messages j = s.messages j)
    (sizes : ∀ j, j < front.length → t.chainSize j = s.chainSize j) (tail : t.chainTail = .pkt i)
    (same : ∀ r : Ref, r.place < i → r.place ∉ chain → t.mbufs r = s.mbufs r)
    (new : Stored h rpc t.mbufs (t.messages front.length) (t.chainSize front.length) msg
      (chain ++ [i])) :
    Holds h rpc t (i + 1) (front ++ [msg]) (before ++ [chain ++ [i]]) where
  count := by
    have count := holds.count
    rw [accepted]
    simpa using count
  chained := by
    have chained := holds.chained
    rw [accepted]
    simpa using chained
  stored := by
    intro j msg' chain' at_ there
    rcases Nat.lt_or_ge j front.length with early | after
    · rw [List.getElem?_append_left early] at at_
      rw [List.getElem?_append_left (by rw [lengths]; exact early)] at there
      rw [messages j early, sizes j early]
      have old := holds.stored j msg' chain'
        (by rw [List.getElem?_append_left early]; exact at_)
        (by rw [List.getElem?_append_left (by rw [lengths]; exact early)]; exact there)
      have member := List.mem_of_getElem? there
      -- The places of an earlier entry come before those of the last.
      refine old.frame fun r in_ => same r ?_ fun back => ?_
      · exact holds.below_chain (List.mem_append_left _ member) in_
      · have order := holds.order
        rw [List.flatten_append, List.flatten_singleton, List.pairwise_append] at order
        exact lt_irrefl _
          (order.2.2 _ (List.mem_flatten.mpr ⟨chain', member, in_⟩) _ back)
    · rw [List.getElem?_append_right after] at at_
      rw [List.getElem?_append_right (by rw [lengths]; exact after)] at there
      have at_end : j = front.length := by
        have bound := (List.getElem?_eq_some_iff.mp at_).1
        rw [List.length_singleton] at bound
        omega
      subst at_end
      rw [List.mem_singleton.mp (List.mem_of_getElem? at_),
        List.mem_singleton.mp (List.mem_of_getElem? there)]
      exact new
  tail := by
    intro chain' k last' at_
    rw [List.getLast?_concat] at last'
    cases last'
    rw [List.getLast?_concat] at at_
    cases at_
    exact tail
  order := by
    have order := order_snoc holds
    rw [List.flatten_append, List.flatten_singleton] at order ⊢
    rwa [← List.append_assoc]
  below := by
    have below := below_snoc holds
    rw [List.flatten_append, List.flatten_singleton] at below ⊢
    rwa [← List.append_assoc]

/-- The room in the last entry is that in the last message. -/
theorem Holds.hasRoom_iff (holds : Holds h rpc s i msgs chains) (size : Nat) :
    s.hasRoom size = true ↔ ∃ last, msgs.getLast? = some last ∧ last.hasRoom size = true := by
  cases there : msgs.getLast? with
  | none =>
    have none_ : s.accepted = 0 := by
      rw [← holds.count, List.getLast?_eq_none_iff.mp there]
      rfl
    simp [Loop.hasRoom, none_]
  | some last =>
    obtain ⟨front, before, chain, -, -, accepted, -, stored⟩ := holds.last there
    have place : s.accepted - 1 = front.length := by omega
    simp only [Loop.hasRoom, place, Message.hasRoom, stored.len, stored.type, decide_eq_true_eq,
      Option.some.injEq, exists_eq_left']
    constructor
    · rintro ⟨-, fits, normal, few⟩
      rw [stored.size normal] at few
      exact ⟨by omega, normal, by omega⟩
    · rintro ⟨fits, normal, few⟩
      rw [stored.size normal]
      exact ⟨by omega, by omega, normal, by omega⟩

/-! ### A packet that goes into the log -/

/-- A packet in one segment, with the headers in front unless another quorum sent it on. -/
structure Ready (h : Sizes) (multicore : Bool) (m : RteMbuf) (size : Nat) : Prop where
  next : m.next = none
  nbSegs : m.nbSegs = 1
  pktLen : m.pktLen = m.dataLen
  dataLen : m.dataLen = size + if multicore then 0 else h.offset

variable {packet : Buffer UInt8} {type : MsgType}

theorem enter_config (code : rpcCode (packet.read 0 sizeofRpc) = 5 ∧ type = .removeNode ∨
      rpcCode (packet.read 0 sizeofRpc) = 4 ∧ type = .addNonvotingNode) :
    enter msgs packet = msgs ++ [⟨type, packet.len, false, [packet]⟩] := by
  rcases code with ⟨five, rfl⟩ | ⟨four, rfl⟩
  · simp [enter, five]
  · simp [enter, four]

theorem enter_room
    (plain : rpcCode (packet.read 0 sizeofRpc) ≠ 5 ∧ rpcCode (packet.read 0 sizeofRpc) ≠ 4)
    (room : last.hasRoom packet.len = true) :
    enter (front ++ [last]) packet = front ++ [last.append packet] := by
  simp [enter, plain.1, plain.2, room]

theorem enter_open
    (plain : rpcCode (packet.read 0 sizeofRpc) ≠ 5 ∧ rpcCode (packet.read 0 sizeofRpc) ≠ 4)
    (full : ¬ ∃ last, msgs.getLast? = some last ∧ last.hasRoom packet.len = true) :
    enter msgs packet =
      msgs ++ [⟨.normal, packet.len, isMulticore (packet.read 0 sizeofRpc), [packet]⟩] := by
  unfold enter
  simp only [if_neg plain.1, if_neg plain.2]
  cases there : msgs.getLast? with
  | none =>
    rw [List.getLast?_eq_none_iff.mp there]
    rfl
  | some last =>
    dsimp only
    rw [if_neg fun room => full ⟨last, there, room⟩]

/-- An entry of one packet with its own headers. -/
theorem stored_alone {mbufs : Ref → RteMbuf} {size : Int}
    (ready : Ready h false (mbufs (.pkt i)) (rpc i).len) (one : type = .normal → size = 1) :
    Stored h rpc mbufs ⟨.pkt i, h.rpcsz (mbufs (.pkt i)), type⟩ size
      ⟨type, (rpc i).len, false, [rpc i]⟩ [i] where
  packets := rfl
  type := rfl
  len := by
    have len := ready.dataLen
    simp [Sizes.rpcsz, len]
  size := one
  buf := rfl
  linked := linked_singleton ready.next
  nbSegs := ready.nbSegs
  pktLen := by simp [refsOf, ready.pktLen]
  dataLen := by
    intro k i' at_
    cases k with
    | zero =>
      cases at_
      simpa using ready.dataLen
    | succ k => simp at at_

section Chaining

variable (s) (r : Ref) (size : Int)

theorem chainOn_next (x : Ref) : ((s.chainOn r size).mbufs x).next =
    if x = s.chainTail then some r else (s.mbufs x).next := by
  simp only [Loop.chainOn, Loop.store, Loop.setSize, Function.update_apply]
  split_ifs <;> simp_all

theorem chainOn_dataLen (x : Ref) : ((s.chainOn r size).mbufs x).dataLen = (s.mbufs x).dataLen := by
  simp only [Loop.chainOn, Loop.store, Loop.setSize, Function.update_apply]
  split_ifs <;> simp_all

theorem chainOn_nbSegs : ((s.chainOn r size).mbufs (s.messages (s.accepted - 1)).buf).nbSegs =
    (s.mbufs (s.messages (s.accepted - 1)).buf).nbSegs + 1 := by
  simp only [Loop.chainOn, Loop.store, Loop.setSize, Function.update_apply]
  split_ifs <;> simp_all

theorem chainOn_pktLen : ((s.chainOn r size).mbufs (s.messages (s.accepted - 1)).buf).pktLen =
    (s.mbufs (s.messages (s.accepted - 1)).buf).pktLen + (s.mbufs r).dataLen := by
  simp only [Loop.chainOn, Loop.store, Loop.setSize, Function.update_apply]
  split_ifs <;> simp_all

theorem chainOn_same {x : Ref} (notTail : x ≠ s.chainTail)
    (notHead : x ≠ (s.messages (s.accepted - 1)).buf) :
    (s.chainOn r size).mbufs x = s.mbufs x := by
  simp [Loop.chainOn, Loop.store, Loop.setSize, Function.update_of_ne notTail,
    Function.update_of_ne notHead]

end Chaining

/-- The packet is linked in: its headers are gone, and the entry before had room. -/
theorem Holds.links (holds : Holds h rpc s i msgs chains) (there : msgs.getLast? = some last)
    {m : RteMbuf} (next : m.next = none) (dataLen : m.dataLen = (rpc i).len) :
    ∃ chains', Holds h rpc ((s.store (.pkt i) m).chainOn (.pkt i) (rpc i).len) (i + 1)
        (msgs.dropLast ++ [last.append (rpc i)]) chains' ∧
      chains'.flatten = chains.flatten ++ [i] ∧
      ∀ k, i < k → ((s.store (.pkt i) m).chainOn (.pkt i) (rpc i).len).mbufs (.pkt k) =
        s.mbufs (.pkt k) := by
  obtain ⟨front, before, chain, rfl, rfl, accepted, lengths, stored⟩ := holds.last there
  have place : s.accepted - 1 = front.length := by omega
  have inChain {k : Nat} (member : k ∈ chain) : k < i :=
    holds.below_chain (List.mem_append_right _ (List.mem_singleton.mpr rfl)) member
  have new : i ∉ chain := fun member => lt_irrefl i (inChain member)
  have nodup : chain.Nodup := by
    have order := holds.order
    rw [List.flatten_append, List.flatten_singleton, List.pairwise_append] at order
    exact order.2.1.imp fun lt => Nat.ne_of_lt lt
  obtain ⟨k, lastPlace⟩ : ∃ k, chain.getLast? = some k :=
    ⟨_, List.getLast?_eq_some_getLast stored.some_⟩
  have tail : s.chainTail = .pkt k := holds.tail chain k (List.getLast?_concat ..) lastPlace
  have bufPlace : (s.messages front.length).buf.place ∈ chain := place_mem stored.buf_mem
  have bufOther : (s.messages front.length).buf ≠ .pkt i := by
    intro same
    rw [same] at bufPlace
    exact new bufPlace
  have outside {r : Ref} (apart : r ≠ .pkt i) (away : r.place ∉ chain) :
      ((s.store (.pkt i) m).chainOn (.pkt i) (rpc i).len).mbufs r = s.mbufs r := by
    have notTail : r ≠ s.chainTail := by
      rintro rfl
      rw [tail] at away
      exact away (List.mem_of_getLast? lastPlace)
    have notHead : r ≠ (s.messages (s.accepted - 1)).buf := by
      rintro rfl
      rw [place] at away
      exact away bufPlace
    rw [chainOn_same (s.store (.pkt i) m) (.pkt i) (rpc i).len notTail notHead]
    exact Function.update_of_ne apart _ _
  have at_ (x : Ref) : (s.store (.pkt i) m).mbufs x = if x = .pkt i then m else s.mbufs x := by
    simp [Loop.store, Function.update_apply]
  have added : Stored h rpc ((s.store (.pkt i) m).chainOn (.pkt i) (rpc i).len).mbufs
      { s.messages front.length with len := (s.messages front.length).len + (rpc i).len }
      (s.chainSize front.length + 1) (last.append (rpc i)) (chain ++ [i]) := by
    refine stored.snoc nodup new lastPlace (fun x => ?_) (fun x => ?_) ?_ ?_
    · rw [chainOn_next, at_]
      simp only [Loop.store, tail]
      split_ifs
      · rfl
      · exact next
      · rfl
    · rw [chainOn_dataLen, at_]
      split_ifs
      · exact dataLen
      · rfl
    · have segs := chainOn_nbSegs (s.store (.pkt i) m) (.pkt i) (rpc i).len
      rw [at_] at segs
      simpa only [Loop.store, place, if_neg bufOther] using segs
    · have total := chainOn_pktLen (s.store (.pkt i) m) (.pkt i) (rpc i).len
      rw [at_, at_, if_pos rfl, dataLen] at total
      simpa only [Loop.store, place, if_neg bufOther] using total
  refine ⟨before ++ [chain ++ [i]], ?_, by simp, fun j later => outside ?_ ?_⟩
  rotate_left
  · rintro ⟨⟩
    exact lt_irrefl i later
  · intro member
    exact lt_irrefl i (lt_trans later (inChain member))
  rw [List.dropLast_concat]
  refine holds.extends lengths rfl (fun j early => ?_) (fun j early => ?_) rfl
    (fun r low away => ?_) ?_
  · have differs : j ≠ s.accepted - 1 := by omega
    simp [Loop.chainOn, Loop.store, Loop.setSize, Function.update_of_ne differs]
  · have differs : j ≠ s.accepted - 1 := by omega
    simp [Loop.chainOn, Loop.store, Loop.setSize, Function.update_of_ne differs]
  · refine outside ?_ away
    rintro rfl
    exact lt_irrefl i low
  · have slot : ((s.store (.pkt i) m).chainOn (.pkt i) (rpc i).len).messages front.length =
        { s.messages front.length with len := (s.messages front.length).len + (rpc i).len } := by
      simp [Loop.chainOn, Loop.store, Loop.setSize, place]
    have size : ((s.store (.pkt i) m).chainOn (.pkt i) (rpc i).len).chainSize front.length =
        s.chainSize front.length + 1 := by
      simp [Loop.chainOn, Loop.store, Loop.setSize, place]
    rw [slot, size]
    exact added

/-- The packet opens an entry with headers of its own. -/
theorem Holds.opensAlone (holds : Holds h rpc s i msgs chains)
    (ready : Ready h false (s.mbufs (.pkt i)) (rpc i).len) (messages : t.messages =
      Function.update s.messages s.accepted ⟨.pkt i, h.rpcsz (s.mbufs (.pkt i)), type⟩)
    (accepted : t.accepted = s.accepted + 1) (tail : t.chainTail = .pkt i)
    (mbufs : t.mbufs = s.mbufs) (sizes : ∀ j, j < s.accepted → t.chainSize j = s.chainSize j)
    (one : type = .normal → t.chainSize s.accepted = 1) :
    Holds h rpc t (i + 1) (msgs ++ [⟨type, (rpc i).len, false, [rpc i]⟩]) (chains ++ [[i]]) := by
  refine holds.opens accepted (fun j early => ?_) sizes tail (fun r _ => by rw [mbufs]) ?_
  · rw [messages, Function.update_of_ne (Nat.ne_of_lt early)]
  · rw [messages, Function.update_self, mbufs]
    exact stored_alone ready one

/-- The packet opens an entry behind a new segment for the headers. -/
theorem Holds.opensHead (holds : Holds h rpc s i msgs chains)
    (ready : Ready h true (s.mbufs (.pkt i)) (rpc i).len) {pre : RteMbuf} (one : pre.nbSegs = 1)
    (empty : pre.pktLen = pre.dataLen) :
    Holds h rpc (((s.store (.head i) { pre with
        nbSegs := pre.nbSegs + 1
        pktLen := pre.pktLen + (s.mbufs (.pkt i)).dataLen
        next := some (.pkt i) }).setSize s.accepted 2).openEntry ⟨.head i, (rpc i).len, .normal⟩
          (.pkt i)) (i + 1) (msgs ++ [⟨.normal, (rpc i).len, true, [rpc i]⟩]) (chains ++ [[i]]) := by
  refine holds.opens rfl (fun j early => ?_) (fun j early => ?_) rfl (fun r low => ?_) ?_
  · simp [Loop.openEntry, Loop.setSize, Loop.store, Function.update_of_ne (Nat.ne_of_lt early)]
  · simp [Loop.openEntry, Loop.setSize, Loop.store, Function.update_of_ne (Nat.ne_of_lt early)]
  · have apart : r ≠ .head i := by
      rintro rfl
      exact lt_irrefl i low
    simp [Loop.openEntry, Loop.setSize, Loop.store, Function.update_of_ne apart]
  · have len := ready.dataLen
    simp only [Loop.openEntry, Loop.setSize, Loop.store, Function.update_self]
    refine ⟨rfl, rfl, rfl, fun _ => rfl, rfl, linked_pair ?_ ?_, ?_, ?_, ?_⟩
    · simp
    · simp [ready.next]
    · simp [one, Message.chainSize]
    · simp [refsOf, empty]
    · intro k i' at_
      cases k with
      | zero =>
        cases at_
        simpa using len
      | succ k => simp at at_

/-- **One packet into the log.**  The loop goes on with the messages of the list model. -/
theorem Holds.logged (holds : Holds h rpc s i msgs chains) {multicore : Bool} {v : View}
    {header : List UInt8} (is : header = (rpc i).read 0 sizeofRpc)
    (ready : Ready h multicore (s.mbufs (.pkt i)) (rpc i).len)
    (kind : isMulticore header = multicore)
    (config : multicore = true → rpcCode header ≠ 5 ∧ rpcCode header ≠ 4)
    (pool : multicore = true → h.offset ≤ v.poolHeadroom) :
    ∃ t chains', s.place h v i header = some t ∧
      Holds h rpc t (i + 1) (enter msgs (rpc i)) chains' ∧
      chains'.flatten = chains.flatten ++ [i] ∧ t.inflight = s.inflight ∧
      ∀ k, i < k → t.mbufs (.pkt k) = s.mbufs (.pkt k) := by
  unfold Loop.place
  dsimp only
  have size : (if isMulticore header then ((s.mbufs (.pkt i)).dataLen : Int)
      else h.rpcsz (s.mbufs (.pkt i))) = (rpc i).len := by
    rw [Sizes.rpcsz, ready.dataLen, kind]
    cases multicore <;> simp
  rw [size]
  subst is
  by_cases five : rpcCode ((rpc i).read 0 sizeofRpc) = 5
  · rw [if_pos five, enter_config (.inl ⟨five, rfl⟩)]
    cases multicore with
    | true => exact absurd five (config rfl).1
    | false =>
      exact ⟨_, _, rfl, holds.opensAlone ready rfl rfl rfl rfl (fun _ _ => rfl) nofun, by simp,
        rfl, fun _ _ => rfl⟩
  · rw [if_neg five]
    by_cases four : rpcCode ((rpc i).read 0 sizeofRpc) = 4
    · rw [if_pos four, enter_config (.inr ⟨four, rfl⟩)]
      cases multicore with
      | true => exact absurd four (config rfl).2
      | false =>
        exact ⟨_, _, rfl, holds.opensAlone ready rfl rfl rfl rfl (fun _ _ => rfl) nofun, by simp,
          rfl, fun _ _ => rfl⟩
    · rw [if_neg four]
      by_cases room : s.hasRoom (rpc i).len = true
      · rw [if_pos room]
        obtain ⟨last, there, fits⟩ := (holds.hasRoom_iff (rpc i).len).mp room
        obtain ⟨front, rfl⟩ := List.getLast?_eq_some_iff.mp there
        rw [enter_room ⟨five, four⟩ fits]
        obtain ⟨m, cut, next, dataLen⟩ : ∃ m, (if isMulticore ((rpc i).read 0 sizeofRpc) = true
            then some (s.mbufs (.pkt i)) else h.delAdjHeader (s.mbufs (.pkt i))) = some m ∧
            m.next = none ∧ m.dataLen = (rpc i).len := by
          have len := ready.dataLen
          rw [kind]
          cases multicore with
          | true => exact ⟨_, rfl, ready.next, len⟩
          | false =>
            have long : ¬ (s.mbufs (.pkt i)).dataLen < h.offset := by
              rw [len]
              simp
            refine ⟨_, if_neg long, ready.next, ?_⟩
            simp [len]
        obtain ⟨chains', linked, flat, still⟩ := holds.links there next dataLen
        rw [List.dropLast_concat] at linked
        exact ⟨_, chains', by rw [cut]; rfl, linked, flat, rfl, still⟩
      · have full : ¬ ∃ last, msgs.getLast? = some last ∧ last.hasRoom (rpc i).len = true :=
          fun found => room ((holds.hasRoom_iff (rpc i).len).mpr found)
        rw [if_neg room, enter_open ⟨five, four⟩ full, kind]
        cases multicore with
        | false =>
          refine ⟨_, _, rfl, holds.opensAlone ready rfl rfl rfl rfl (fun j early => ?_)
            (fun _ => ?_), by simp, rfl, fun _ _ => rfl⟩
          · simp [Loop.openEntry, Loop.setSize, Function.update_of_ne (Nat.ne_of_lt early)]
          · simp [Loop.openEntry, Loop.setSize]
        | true =>
          have fits : ¬ v.poolHeadroom < h.offset := Nat.not_lt.mpr (pool rfl)
          have made : h.addAdjHeader ⟨v.poolHeadroom, 0, 0, 1, none⟩ =
              some ⟨v.poolHeadroom - h.offset, 0 + h.offset, 0 + h.offset, 1, none⟩ := if_neg fits
          rw [if_pos rfl, made]
          refine ⟨_, _, rfl, holds.opensHead ready rfl rfl, by simp, rfl, fun k _ => ?_⟩
          simp [Loop.openEntry, Loop.setSize, Loop.store]

end Lists

end Cyclone.Core.Batching
