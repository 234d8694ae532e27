/-
# Core.Bursts — nothing is lost or reordered by batching

The loop of `Core.Batching` over a burst of packets.  `Kept.turn` is one packet, whatever becomes of
it; `accept_kept` the burst.  The messages of the list model have their limits from
`enter_sane`, and with them `batching_keeps`: the entries of a burst from the network are the packets
that passed the checks, once each and in order, with consistent lengths, and a change of the
configuration is alone in its entry.
-/
import Cyclone.Core.Batching
import Mathlib.Algebra.BigOperators.Group.List.Basic

namespace Cyclone.Core.Batching

open Cyclone.Theory
open Cyclone.Core.Inflight (bump maxInflight)

set_option autoImplicit false

/-! ## A burst -/

/-- The messages of the list model for these packets. -/
def built (rpc : Nat → Buffer UInt8) (places : List Nat) : List Message :=
  places.foldl (fun msgs i => enter msgs (rpc i)) []

/-- A packet of one segment; for the other pass a multi-core request, not for a change of the
configuration, and room for the headers in a new mbuf. -/
structure Fit (h : Sizes) (multicore : Bool) (v : View) (p : Received) : Prop where
  next : p.mbuf.next = none
  nbSegs : p.mbuf.nbSegs = 1
  pktLen : p.mbuf.pktLen = p.mbuf.dataLen
  kind : multicore = true → isMulticore p.header = true
  config : multicore = true → rpcCode p.header ≠ 5 ∧ rpcCode p.header ≠ 4
  pool : multicore = true → h.offset ≤ v.poolHeadroom

/-- `accept` ends the process: on a mask with cores that are not there, or for want of headroom. -/
def Stops (h : Sizes) (v : View) (p : Received) : Prop :=
  isMulticore p.header = true ∧ 2 ^ v.executorThreads - 1 < coreMask p.header ∨
    p.mbuf.headroom + etherHdr < h.front

section Burst

variable {h : Sizes} {multicore : Bool} {v : View} {p : Received} {s t : Loop} {i : Nat}

theorem header_arrival (inflight : Int → Int) :
    (p.arrival multicore inflight).header = p.header := by
  simp only [Arrival.header, Received.header, Received.arrival, Received.rpc, Buffer.read]

/-- A packet that `bad` drops is dropped by the checks of the list model. -/
theorem verdict_bad (inflight : Int → Int) (bad : p.bad = true) :
    verdict false v (p.arrival false inflight) = .dropped := by
  unfold verdict
  dsimp only
  apply if_pos
  simp only [Received.bad, Bool.or_eq_true, decide_eq_true_eq] at bad
  refine ⟨rfl, ?_⟩
  rcases bad with ((ipv4 | magic) | short) | next
  · exact .inl (by simp only [Received.arrival, ipv4, Bool.true_or])
  · exact .inl (by simp only [Received.arrival, magic, Bool.or_true, Bool.true_or])
  · exact .inr (.inl (Nat.sub_eq_zero_of_le short))
  · exact .inl (by simp only [Received.arrival, decide_eq_true next, Bool.or_true])

variable {inflight : Int → Int}

theorem verdict_ended (ended : verdict multicore v (p.arrival multicore inflight) = .ended) :
    Stops h v p := by
  unfold verdict at ended
  dsimp only at ended
  generalize (if multicore = true then _ else _) = term at ended
  split_ifs at ended with _ several wide
  exact .inl ⟨several.2, wide⟩

/-- From the network only requests for single cores come into the log. -/
theorem verdict_logged_single {a : Arrival} (logged : verdict false v a = .logged) :
    isMulticore a.header = false := by
  unfold verdict at logged
  dsimp only at logged
  by_cases several : isMulticore a.header = true
  · rw [several] at logged
    split_ifs at logged <;> simp_all
  · simpa using several

theorem ready_adjustHead (fit : Fit h false v p) (good : p.bad = false) {m : RteMbuf}
    (adjusted : h.adjustHead p.mbuf = some m) : Ready h false m (p.rpc false).len := by
  have long : etherHdr + ipv4Hdr < p.mbuf.dataLen := by
    simp [Received.bad] at good
    exact good.1.2
  have cut : ¬ p.mbuf.dataLen < etherHdr := by omega
  have pktLen := fit.pktLen
  rw [Sizes.adjustHead, RteMbuf.adj, if_neg cut, Option.bind_some, RteMbuf.prepend] at adjusted
  split at adjusted
  · cases adjusted
  · cases adjusted
    refine ⟨fit.next, fit.nbSegs, ?_, ?_⟩
    · simp only
      omega
    · simp only [Received.rpc, Sizes.offset]
      simp
      omega

theorem stops_of_adjustHead (good : p.bad = false) (none_ : h.adjustHead p.mbuf = none) :
    Stops h v p := by
  have long : etherHdr + ipv4Hdr < p.mbuf.dataLen := by
    simp [Received.bad] at good
    exact good.1.2
  have cut : ¬ p.mbuf.dataLen < etherHdr := by omega
  rw [Sizes.adjustHead, RteMbuf.adj, if_neg cut, Option.bind_some, RteMbuf.prepend] at none_
  split at none_
  · rename_i short
    exact .inr short
  · cases none_

/-- Before packet `i` the loop has these counters and the messages of the packets at `places`, and
the packets from `i` on are as they came. -/
def Kept (h : Sizes) (multicore : Bool) (pktArray : Nat → Received) (s : Loop) (i : Nat)
    (ledger : (Int → Int) × List Nat) : Prop :=
  ∃ chains, Holds h (fun k => (pktArray k).rpc multicore) s i
      (built (fun k => (pktArray k).rpc multicore) ledger.2) chains ∧
    chains.flatten = ledger.2 ∧ s.inflight = ledger.1 ∧
    ∀ k, i ≤ k → s.mbufs (.pkt k) = (pktArray k).mbuf

theorem built_snoc (rpc : Nat → Buffer UInt8) (places : List Nat) (i : Nat) :
    built rpc (places ++ [i]) = enter (built rpc places) (rpc i) := by
  simp [built]

variable {pktArray : Nat → Received}

/-- A packet that is not logged. -/
theorem Kept.passes {ledger : (Int → Int) × List Nat}
    (kept : Kept h multicore pktArray s i ledger) (accepted : t.accepted = s.accepted)
    (messages : t.messages = s.messages) (tail : t.chainTail = s.chainTail)
    (sizes : t.chainSize = s.chainSize) (same : ∀ r : Ref, r ≠ .pkt i → t.mbufs r = s.mbufs r)
    (counters : t.inflight = inflight) :
    Kept h multicore pktArray t (i + 1) (inflight, ledger.2) := by
  obtain ⟨chains, holds, flat, -, waiting⟩ := kept
  refine ⟨chains, holds.passed accepted messages tail sizes (fun r low => same r ?_)
    (Nat.le_succ i), flat, counters, fun k later => ?_⟩
  · rintro rfl
    exact lt_irrefl i low
  · rw [same (.pkt k) (by rintro ⟨⟩; omega)]
    exact waiting k (by omega)

/-- **One turn.** -/
theorem Kept.turn {done : Nat → List Int}
    (kept : Kept h multicore pktArray s i (logged multicore v inflight pktArray done i))
    (fit : Fit h multicore v (pktArray i)) :
    match (s.finished (done i)).acceptAt multicore h v i (pktArray i) with
    | none => Stops h v (pktArray i)
    | some t => Kept h multicore pktArray t (i + 1)
        (logged multicore v inflight pktArray done (i + 1)) := by
  rw [logged]
  generalize logged multicore v inflight pktArray done i = ledger at kept ⊢
  have counters : (s.finished (done i)).inflight =
      (done i).foldl (fun inflight client => bump inflight client (-1)) ledger.1 := by
    obtain ⟨-, -, -, same, -⟩ := kept
    rw [Loop.finished, same]
  rw [← counters]
  have now : Kept h multicore pktArray (s.finished (done i)) i
      ((s.finished (done i)).inflight, ledger.2) := by
    obtain ⟨chains, holds, flat, -, waiting⟩ := kept
    have still : Holds h (fun k => (pktArray k).rpc multicore) (s.finished (done i)) i
        (built (fun k => (pktArray k).rpc multicore) ledger.2) chains :=
      holds.passed (t := s.finished (done i)) rfl rfl rfl rfl (fun _ _ => rfl) (Nat.le_refl i)
    exact ⟨chains, still, flat, rfl, waiting⟩
  clear counters kept
  generalize s.finished (done i) = s at now ⊢
  have waiting : s.mbufs (.pkt i) = (pktArray i).mbuf := by
    obtain ⟨-, -, -, -, waiting⟩ := now
    exact waiting i (Nat.le_refl i)
  have stored (m : RteMbuf) (r : Ref) (apart : r ≠ .pkt i) :
      (s.store (.pkt i) m).mbufs r = s.mbufs r := Function.update_of_ne apart _ _
  unfold Loop.acceptAt
  by_cases bad : multicore = false ∧ (pktArray i).bad = true
  · rw [if_pos bad]
    obtain ⟨rfl, junk⟩ := bad
    rw [verdict_bad _ junk]
    exact now.passes rfl rfl rfl rfl (fun _ _ => rfl) rfl
  · rw [if_neg bad, waiting]
    have good (network : multicore = false) : (pktArray i).bad = false := by
      simpa using fun junk => bad ⟨network, junk⟩
    cases adjusted : (if multicore = true then some (pktArray i).mbuf
        else h.adjustHead (pktArray i).mbuf) with
    | none =>
      cases multicore with
      | true => cases adjusted
      | false => exact stops_of_adjustHead (good rfl) adjusted
    | some m =>
      have ready : Ready h multicore m ((pktArray i).rpc multicore).len := by
        cases multicore with
        | true =>
          cases adjusted
          exact ⟨fit.next, fit.nbSegs, fit.pktLen, rfl⟩
        | false => exact ready_adjustHead fit (good rfl) adjusted
      rw [Option.bind_some]
      dsimp only
      have counters : (s.store (.pkt i) m).inflight = s.inflight := rfl
      rw [counters]
      cases found : verdict multicore v ((pktArray i).arrival multicore s.inflight) with
      | ended => exact verdict_ended found
      | dropped => exact now.passes rfl rfl rfl rfl (stored m) rfl
      | forwarded => exact now.passes rfl rfl rfl rfl (stored m) rfl
      | handed => exact now.passes rfl rfl rfl rfl (stored m) rfl
      | logged =>
        obtain ⟨chains, holds, flat, -, later⟩ := now
        have kind : isMulticore (pktArray i).header = multicore := by
          cases multicore with
          | true => exact fit.kind rfl
          | false => exact header_arrival s.inflight ▸ verdict_logged_single found
        have still : Holds h (fun k => (pktArray k).rpc multicore) (s.store (.pkt i) m) i
            (built (fun k => (pktArray k).rpc multicore) ledger.2) chains := by
          refine holds.passed (t := s.store (.pkt i) m) rfl rfl rfl rfl
            (fun r low => stored m r ?_) (Nat.le_refl i)
          rintro rfl
          exact lt_irrefl i low
        have own : (s.store (.pkt i) m).mbufs (.pkt i) = m := Function.update_self ..
        obtain ⟨t, chains', placed, held, more, same, after⟩ :=
          still.logged (v := v) (header_arrival (p := pktArray i) s.inflight).symm
            (own.symm ▸ ready) kind fit.config fit.pool
        rw [placed]
        refine ⟨chains', ?_, ?_, same, fun k past => ?_⟩
        · rw [built_snoc]
          exact held
        · rw [more, flat]
        · rw [after k past, stored m (.pkt k) (by rintro ⟨⟩; omega)]
          exact later k (by omega)

/-- **The burst.** -/
theorem accept_kept (left : Loop.Left) (done : Nat → List Int) {available : Nat}
    (fit : ∀ i, i < available → Fit h multicore v (pktArray i)) :
    match Loop.accept multicore h v left pktArray done available with
    | none => ∃ i, i < available ∧ Stops h v (pktArray i)
    | some t => Kept h multicore pktArray t available
        (logged multicore v left.inflight pktArray done available) := by
  induction available with
  | zero =>
    refine ⟨[], ⟨rfl, rfl, nofun, nofun, List.Pairwise.nil, nofun⟩, rfl, rfl, fun _ _ => rfl⟩
  | succ i ih =>
    have before := ih fun k early => fit k (Nat.lt_succ_of_lt early)
    rw [Loop.accept]
    cases ran : Loop.accept multicore h v left pktArray done i with
    | none =>
      rw [ran] at before
      obtain ⟨k, early, stops⟩ := before
      exact ⟨k, Nat.lt_succ_of_lt early, stops⟩
    | some s =>
      rw [ran] at before
      have turn := Kept.turn before (fit i (Nat.lt_succ_self i))
      rw [Option.bind_some]
      cases next : (s.finished (done i)).acceptAt multicore h v i (pktArray i) with
      | none =>
        rw [next] at turn
        exact ⟨i, Nat.lt_succ_self i, turn⟩
      | some t =>
        rw [next] at turn
        exact turn

/-- The packets in the log came in this order. -/
theorem logged_sublist (inflight : Int → Int) (done : Nat → List Int) (available : Nat) :
    (logged multicore v inflight pktArray done available).2.Sublist (List.range available) := by
  induction available with
  | zero => exact .refl _
  | succ i ih =>
    rw [logged, List.range_succ]
    split
    · exact ih.trans (List.sublist_append_left _ _)
    · exact ih.append (.refl _)
    · exact ih.trans (List.sublist_append_left _ _)
    · exact ih.trans (List.sublist_append_left _ _)
    · exact ih.trans (List.sublist_append_left _ _)

theorem logged_single (inflight : Int → Int) (done : Nat → List Int) (available : Nat) :
    ∀ i ∈ (logged false v inflight pktArray done available).2,
      isMulticore (pktArray i).header = false := by
  induction available with
  | zero => exact nofun
  | succ i ih =>
    rw [logged]
    split
    · exact ih
    · rename_i found
      intro k member
      rcases List.mem_append.mp member with old | new
      · exact ih k old
      · rw [List.mem_singleton.mp new]
        exact header_arrival (p := pktArray i) _ ▸ verdict_logged_single found
    · exact ih
    · exact ih
    · exact ih

end Burst

/-! ## Messages of the list model -/

/-- How a packet enters. -/
theorem enter_forms (msgs : List Message) (packet : Buffer UInt8) :
    (∃ type, (type = .removeNode ∧ rpcCode (packet.read 0 sizeofRpc) = 5 ∨
        type = .addNonvotingNode ∧ rpcCode (packet.read 0 sizeofRpc) = 4) ∧
      enter msgs packet = msgs ++ [⟨type, packet.len, false, [packet]⟩]) ∨
    (rpcCode (packet.read 0 sizeofRpc) ≠ 5 ∧ rpcCode (packet.read 0 sizeofRpc) ≠ 4) ∧
      ((∃ front last, msgs = front ++ [last] ∧ last.hasRoom packet.len = true ∧
          enter msgs packet = front ++ [last.append packet]) ∨
        enter msgs packet =
          msgs ++ [⟨.normal, packet.len, isMulticore (packet.read 0 sizeofRpc), [packet]⟩]) := by
  by_cases five : rpcCode (packet.read 0 sizeofRpc) = 5
  · exact .inl ⟨_, .inl ⟨rfl, five⟩, enter_config (.inl ⟨five, rfl⟩)⟩
  · by_cases four : rpcCode (packet.read 0 sizeofRpc) = 4
    · exact .inl ⟨_, .inr ⟨rfl, four⟩, enter_config (.inr ⟨four, rfl⟩)⟩
    · refine .inr ⟨⟨five, four⟩, ?_⟩
      by_cases room : ∃ last, msgs.getLast? = some last ∧ last.hasRoom packet.len = true
      · obtain ⟨last, there, fits⟩ := room
        obtain ⟨front, rfl⟩ := List.getLast?_eq_some_iff.mp there
        exact .inl ⟨front, last, rfl, fits, enter_room ⟨five, four⟩ fits⟩
      · exact .inr (enter_open ⟨five, four⟩ room)

/-- A message as long as its packets, within the limits, and of updates or of one change of the
configuration. -/
structure Sane (msg : Message) : Prop where
  len : msg.len = (msg.chain.map (·.len)).sum
  short : msg.len ≤ msgMaxsize
  few : msg.chainSize ≤ chainSz
  kind : (msg.type = .normal ∧ ∀ packet ∈ msg.chain,
      rpcCode (packet.read 0 sizeofRpc) ≠ 5 ∧ rpcCode (packet.read 0 sizeofRpc) ≠ 4) ∨
    ∃ packet, msg.chain = [packet] ∧
      (msg.type = .removeNode ∧ rpcCode (packet.read 0 sizeofRpc) = 5 ∨
        msg.type = .addNonvotingNode ∧ rpcCode (packet.read 0 sizeofRpc) = 4)

variable {msg : Message} {packet : Buffer UInt8}

theorem Sane.append (sane : Sane msg)
    (plain : rpcCode (packet.read 0 sizeofRpc) ≠ 5 ∧ rpcCode (packet.read 0 sizeofRpc) ≠ 4)
    (room : msg.hasRoom packet.len = true) : Sane (msg.append packet) := by
  rw [Message.hasRoom, decide_eq_true_eq] at room
  obtain ⟨fits, normal, few⟩ := room
  refine ⟨?_, fits, ?_, .inl ⟨normal, ?_⟩⟩
  · simp [sane.len]
  · rw [append_chainSize]
    exact few
  · intro packet' member
    rcases List.mem_append.mp member with old | new
    · rcases sane.kind with ⟨-, all⟩ | ⟨_, -, config⟩
      · exact all packet' old
      · rw [normal] at config
        rcases config with ⟨absurd_, -⟩ | ⟨absurd_, -⟩ <;> cases absurd_
    · rw [List.mem_singleton.mp new]
      exact plain

variable {msgs : List Message}

theorem enter_sane (sane : ∀ msg ∈ msgs, Sane msg) (short : packet.len ≤ msgMaxsize) :
    ∀ msg ∈ enter msgs packet, Sane msg := by
  have further {msg : Message} (new : Sane msg) : ∀ msg' ∈ msgs ++ [msg], Sane msg' := by
    intro msg' member
    rcases List.mem_append.mp member with old | one
    · exact sane msg' old
    · rw [List.mem_singleton.mp one]
      exact new
  rcases enter_forms msgs packet with ⟨type, code, is⟩ | ⟨plain, ⟨front, last, rfl, room, is⟩ | is⟩
  · rw [is]
    refine further ⟨(List.sum_singleton ..).symm, short, ?_, .inr ⟨packet, rfl, code⟩⟩
    simp [Message.chainSize, chainSz]
  · rw [is]
    intro msg member
    rcases List.mem_append.mp member with old | one
    · exact sane msg (List.mem_append_left _ old)
    · rw [List.mem_singleton.mp one]
      exact (sane last (List.mem_append_right _ (List.mem_singleton.mpr rfl))).append plain room
  · rw [is]
    refine further ⟨(List.sum_singleton ..).symm, short, ?_, .inl ⟨rfl, fun packet' one => ?_⟩⟩
    · cases isMulticore (packet.read 0 sizeofRpc) <;> simp [Message.chainSize, chainSz]
    · rw [List.mem_singleton.mp one]
      exact plain

theorem enter_single (single : ∀ msg ∈ msgs, msg.freshHead = false)
    (one : isMulticore (packet.read 0 sizeofRpc) = false) :
    ∀ msg ∈ enter msgs packet, msg.freshHead = false := by
  intro msg member
  rcases enter_forms msgs packet with ⟨type, code, is⟩ | ⟨plain, ⟨front, last, rfl, room, is⟩ | is⟩
  · rw [is] at member
    rcases List.mem_append.mp member with old | new
    · exact single msg old
    · rw [List.mem_singleton.mp new]
  · rw [is] at member
    rcases List.mem_append.mp member with old | new
    · exact single msg (List.mem_append_left _ old)
    · rw [List.mem_singleton.mp new]
      exact single last (List.mem_append_right _ (List.mem_singleton.mpr rfl))
  · rw [is] at member
    rcases List.mem_append.mp member with old | new
    · exact single msg old
    · rw [List.mem_singleton.mp new]
      exact one

/-- What every packet's entering keeps, the messages built from them have. -/
theorem built_all {P : Message → Prop} {rpc : Nat → Buffer UInt8} {places : List Nat}
    (keeps : ∀ msgs, ∀ i ∈ places, (∀ msg ∈ msgs, P msg) → ∀ msg ∈ enter msgs (rpc i), P msg) :
    ∀ msg ∈ built rpc places, P msg := by
  induction places using List.reverseRecOn with
  | nil => exact nofun
  | append_singleton places i ih =>
    rw [built_snoc]
    apply keeps _ i (List.mem_append_right _ (List.mem_singleton.mpr rfl))
    exact ih fun msgs k member => keeps msgs k (List.mem_append_left _ member)

/-! ## The entries of a burst -/

/-- The entry at `j` is made of the packets at the places `chain`, in this order, with consistent
lengths. -/
structure Loop.Entry (t : Loop) (h : Sizes) (pktArray : Nat → Received) (j : Nat)
    (chain : List Nat) : Prop where
  buf : (chain.map Ref.pkt).head? = some (t.messages j).buf
  linked : Linked (fun r => (t.mbufs r).next) (chain.map .pkt)
  dataLen : ∀ k i, chain[k]? = some i → (t.mbufs (.pkt i)).dataLen =
    ((pktArray i).rpc false).len + if k = 0 then h.offset else 0
  nbSegs : (t.mbufs (t.messages j).buf).nbSegs = chain.length
  pktLen : (t.mbufs (t.messages j).buf).pktLen =
    (chain.map fun i => (t.mbufs (.pkt i)).dataLen).sum
  len : (t.messages j).len = (chain.map fun i => ((pktArray i).rpc false).len).sum
  short : (t.messages j).len ≤ msgMaxsize
  few : chain.length ≤ chainSz
  kind : ((t.messages j).type = .normal ∧
      ∀ i ∈ chain, rpcCode (pktArray i).header ≠ 5 ∧ rpcCode (pktArray i).header ≠ 4) ∨
    ∃ i, chain = [i] ∧
      ((t.messages j).type = .removeNode ∧ rpcCode (pktArray i).header = 5 ∨
        (t.messages j).type = .addNonvotingNode ∧ rpcCode (pktArray i).header = 4)

theorem Stored.entry {h : Sizes} {pktArray : Nat → Received} {t : Loop} {j : Nat} {size : Int}
    {chain : List Nat}
    (stored : Stored h (fun k => (pktArray k).rpc false) t.mbufs (t.messages j) size msg chain)
    (sane : Sane msg) (single : msg.freshHead = false) : t.Entry h pktArray j chain := by
  have refs : refsOf msg chain = chain.map .pkt := by
    rw [refsOf, single]
    rfl
  have count : msg.chainSize = chain.length := by
    rw [Message.chainSize, stored.packets, single, List.length_map]
    rfl
  have len := sane.len
  rw [stored.packets, List.map_map] at len
  refine ⟨?_, ?_, ?_, ?_, ?_, ?_, ?_, ?_, ?_⟩
  · rw [← refs]
    exact stored.buf
  · rw [← refs]
    exact stored.linked
  · intro k i at_
    simpa [single] using stored.dataLen k i at_
  · rw [stored.nbSegs, count]
  · rw [stored.pktLen, refs, List.map_map]
    rfl
  · rw [stored.len, len]
    rfl
  · rw [stored.len]
    exact_mod_cast sane.short
  · rw [← count]
    exact sane.few
  · rw [stored.type]
    rcases sane.kind with ⟨normal, all⟩ | ⟨packet, one, config⟩
    · refine .inl ⟨normal, fun i member => all _ ?_⟩
      rw [stored.packets]
      exact List.mem_map_of_mem member
    · rw [stored.packets, List.map_eq_singleton_iff] at one
      obtain ⟨i, rfl, rfl⟩ := one
      exact .inr ⟨i, rfl, config⟩

/-- **Batching.**  For a burst from the network of packets of one segment with at most `MSG_MAXSIZE`
bytes of RPCs, either `accept` ends the process, or its entries, taken together, are the packets
that passed the checks, once each and in the order they came; and each entry is linked and measured
as it should be, and has a change of the configuration alone. -/
theorem batching_keeps (h : Sizes) (v : View) (left : Loop.Left) (pktArray : Nat → Received)
    (done : Nat → List Int) (available : Nat) (burst : available ≤ Raft.pktBurst)
    (one : ∀ i, i < available → (pktArray i).mbuf.next = none ∧ (pktArray i).mbuf.nbSegs = 1 ∧
      (pktArray i).mbuf.pktLen = (pktArray i).mbuf.dataLen ∧
      ((pktArray i).rpc false).len ≤ msgMaxsize) :
    match Loop.accept false h v left pktArray done available with
    | none => ∃ i, i < available ∧ Stops h v (pktArray i)
    | some t => t.accepted ≤ Raft.pktBurst ∧ ∃ chains : List (List Nat),
        chains.length = t.accepted ∧
        chains.flatten = (logged false v left.inflight pktArray done available).2 ∧
        ∀ j chain, chains[j]? = some chain → t.Entry h pktArray j chain := by
  have fit (i : Nat) (early : i < available) : Fit h false v (pktArray i) :=
    ⟨(one i early).1, (one i early).2.1, (one i early).2.2.1, nofun, nofun, nofun⟩
  have kept := accept_kept left done fit
  cases ran : Loop.accept false h v left pktArray done available with
  | none =>
    rw [ran] at kept
    exact kept
  | some t =>
    rw [ran] at kept
    obtain ⟨chains, holds, flat, -, -⟩ := kept
    have sub : (logged false v left.inflight pktArray done available).2.Sublist
        (List.range available) := logged_sublist ..
    have member {i : Nat} (at_ : i ∈ (logged false v left.inflight pktArray done available).2) :
        i < available := List.mem_range.mp (sub.subset at_)
    have entry : ∀ j chain, chains[j]? = some chain → t.Entry h pktArray j chain := by
      intro j chain there
      have bound := (List.getElem?_eq_some_iff.mp there).1
      rw [holds.chained, ← holds.count] at bound
      have at_ := List.getElem?_eq_getElem bound
      have in_ := List.mem_of_getElem? at_
      have stored := holds.stored j _ chain at_ there
      apply stored.entry
      · refine built_all (fun msgs i logged_ sane => ?_) _ in_
        exact enter_sane sane (one i (member logged_)).2.2.2
      · refine built_all (P := fun msg => msg.freshHead = false) (fun msgs i logged_ single => ?_)
          _ in_
        exact enter_single single (logged_single _ _ _ i logged_)
    refine ⟨?_, chains, holds.chained, flat, entry⟩
    have filled : ∀ n ∈ chains.map List.length, 1 ≤ n := by
      intro n at_
      obtain ⟨chain, in_, rfl⟩ := List.mem_map.mp at_
      obtain ⟨j, there⟩ := List.getElem?_of_mem in_
      have buf := (entry j chain there).buf
      cases chain with
      | nil => cases buf
      | cons i chain => simp
    calc t.accepted = (chains.map List.length).length := by rw [List.length_map, holds.chained]
      _ ≤ (chains.map List.length).sum := List.length_le_sum_of_one_le _ filled
      _ = (logged false v left.inflight pktArray done available).2.length := by
        rw [← flat, List.length_flatten]
      _ ≤ available := by simpa using sub.length_le
      _ ≤ Raft.pktBurst := burst

/-! ## A burst of four -/

/-- An RPC of term 1 for core 0 from client 7, in a packet of its own. -/
def received (code : UInt8) : Received where
  mbuf := ⟨256, 86, 86, 1, none⟩
  ipv4 := true
  magic := true
  mem := (Buffer.ofCells (rpcHeader code 1 [7, 0, 0, 0])).mem

/-- Two updates, a node to add, and another update. -/
def mixed : Nat → Received
  | 2 => received 4
  | _ => received 1

theorem batching_keeps_mixed : ∃ t : Loop, ∃ chains : List (List Nat),
    Loop.accept false ⟨64, 32, 32⟩ ⟨1, true, 1, 256⟩ ⟨fun _ => ⟨.pkt 0, 0, .normal⟩, .pkt 0,
      fun _ => 0, fun _ => 0⟩ mixed (fun _ => []) 4 = some t ∧ t.accepted = 3 ∧
    chains.flatten = [0, 1, 2, 3] ∧
    ∀ j chain, chains[j]? = some chain → t.Entry ⟨64, 32, 32⟩ mixed j chain := by
  have shape : ∀ i, i < 4 → (mixed i).mbuf.next = none ∧ (mixed i).mbuf.nbSegs = 1 ∧
      (mixed i).mbuf.pktLen = (mixed i).mbuf.dataLen ∧ ((mixed i).rpc false).len ≤ msgMaxsize := by
    intro i _
    match i with
    | 0 | 1 | 3 => decide
    | 2 => decide
    | _ + 4 => omega
  have kept := batching_keeps ⟨64, 32, 32⟩ ⟨1, true, 1, 256⟩ ⟨fun _ => ⟨.pkt 0, 0, .normal⟩, .pkt 0,
    fun _ => 0, fun _ => 0⟩ mixed (fun _ => []) 4 (by decide) shape
  have ran : (Loop.accept false ⟨64, 32, 32⟩ ⟨1, true, 1, 256⟩ ⟨fun _ => ⟨.pkt 0, 0, .normal⟩,
      .pkt 0, fun _ => 0, fun _ => 0⟩ mixed (fun _ => []) 4).any (·.accepted = 3) = true := by
    decide +kernel
  have all : (logged false ⟨1, true, 1, 256⟩ (fun _ => 0) mixed (fun _ => []) 4).2 =
      [0, 1, 2, 3] := by
    decide +kernel
  cases made : Loop.accept false ⟨64, 32, 32⟩ ⟨1, true, 1, 256⟩ ⟨fun _ => ⟨.pkt 0, 0, .normal⟩,
      .pkt 0, fun _ => 0, fun _ => 0⟩ mixed (fun _ => []) 4 with
  | none =>
    rw [made] at ran
    cases ran
  | some t =>
    rw [made] at kept ran
    obtain ⟨-, chains, -, flat, entries⟩ := kept
    exact ⟨t, chains, rfl, by simpa using ran, flat.trans all, entries⟩

end Cyclone.Core.Batching
