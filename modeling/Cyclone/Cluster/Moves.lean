/-
# Cluster.Moves — what one server does to the history

`Good level g i s` is the part of the relation a call of server `i` needs, and
`Moves level i g s g' s'` is what it must give back: a history grown only about `i`,
the server in its place in it, and packets that tell the truth about it.  Moves
compose, so a handler is followed phase by phase.

The phases: nothing the history sees (`Alike`), sends of a leader, a later term, standing,
a vote, an election won, an append, and an accepted log.
-/
import Cyclone.Cluster.Relation

namespace Cyclone

open Cyclone.Raft Cyclone.Theory

set_option autoImplicit false

variable {n : Nat} {α : Type}

/-- One server in its place in a history. -/
structure Good (level : Level) (g : History n α) (i : Fin n) (s : Server (Fin n) α) : Prop where
  matched : g.Matched Entry.term
  stamped : ∀ t, Stamped (g.chain t)
  safe : level.agrees → g.Safe
  server : ServerSim level g i s

/-- Server `i` goes from `s` to `s'` and the history from `g` to `g'`. -/
structure Moves (level : Level) (i : Fin n) (g : History n α) (s : Server (Fin n) α)
    (g' : History n α) (s' : Server (Fin n) α) : Prop where
  frame : Frame i g g'
  good : Good level g' i s'
  emits : ∃ cs, s'.calls = s.calls ++ cs ∧ ∀ p ∈ packetsOf i cs, PacketSim level g' p

section Compose

variable {level : Level} {i : Fin n} {g g' g'' : History n α} {s s' s'' : Server (Fin n) α}

theorem packetsOf_append (cs cs' : List (Callback (Fin n) α)) :
    packetsOf i (cs ++ cs') = packetsOf i cs ++ packetsOf i cs' :=
  List.filterMap_append

theorem Moves.refl (good : Good level g i s) : Moves level i g s g s :=
  ⟨.refl i g, good, [], by simp, by simp [packetsOf]⟩

theorem Moves.trans (first : Moves level i g s g' s') (second : Moves level i g' s' g'' s'') :
    Moves level i g s g'' s'' := by
  obtain ⟨cs, calls, told⟩ := first.emits
  obtain ⟨cs', calls', told'⟩ := second.emits
  refine ⟨first.frame.trans second.frame, second.good, cs ++ cs', ?_, ?_⟩
  · rw [calls', calls, List.append_assoc]
  · intro p member
    rw [packetsOf_append] at member
    rcases List.mem_append.mp member with old | new
    · exact (told p old).mono first.good.matched second.frame.le
    · exact told' p new

/-- What the server applied is what the relation asks for. -/
theorem Good.applied (good : Good level g i s) : AppliedSim level g s := by
  have chain := good.server.chain
  refine ⟨_, chain.trace, fun agrees => ⟨s.currentTerm, ?_⟩⟩
  have low := chain.applied_le
  exact (good.server.commits agrees).starts (List.take_prefix_take_left (by omega))

variable {c : Cluster n α}

/-- The part of a cluster's relation that is about a running server. -/
theorem Sim.good (sim : Sim level c g) (running : c.up i = true) : Good level g i (c.srv i) :=
  ⟨sim.matched, sim.stamped, sim.safe, sim.server i running⟩

variable {env : Env α} {input : Input (Fin n) α} {reply : Fin n}

/-- A call that returned. -/
theorem Sim.returns (sim : Sim level c g) {answer : Option (Msg (Fin n) α)}
    (returned : (c.srv i).handle env input = .ok (s', answer))
    (moves : Moves level i g (c.srv i) g' s')
    (told : ∀ msg ∈ answer, PacketSim level g' ⟨i, reply, msg⟩) :
    Sim level (c.call i env input reply) g' := by
  obtain ⟨cs, calls, packets⟩ := moves.emits
  have new : newCalls (c.srv i) s' = cs := by
    rw [newCalls, calls, List.drop_left]
  unfold Cluster.call
  simp only [returned, new, List.append_assoc]
  apply sim.update moves.frame moves.good.matched moves.good.stamped moves.good.safe
    moves.good.server moves.good.applied
  intro p member
  rcases List.mem_append.mp member with sent | answered
  · exact packets p sent
  · obtain ⟨msg, given, rfl⟩ := Option.map_eq_some_iff.mp (Option.mem_toList.mp answered)
    exact told msg given

/-- Callbacks that neither send nor apply. -/
def internalCall : Callback (Fin n) α → Bool
  | .sendRequestvote _ _ => false
  | .sendAppendentries _ _ => false
  | .applylog _ _ => false
  | _ => true

variable {cs : List (Callback (Fin n) α)}

theorem packetsOf_internal (internal : ∀ c ∈ cs, internalCall c) : packetsOf i cs = [] := by
  unfold packetsOf
  rw [List.filterMap_eq_nil_iff]
  intro c member
  have := internal c member
  cases c <;> first | rfl | cases this

theorem appliedOf_internal (internal : ∀ c ∈ cs, internalCall c) : appliedOf cs = [] := by
  unfold appliedOf
  rw [List.filterMap_eq_nil_iff]
  intro c member
  have := internal c member
  cases c <;> first | rfl | cases this

/-- `s'` came from `s` without a send and without an application. -/
def Internal (s s' : Server (Fin n) α) : Prop :=
  ∃ cs, s'.calls = s.calls ++ cs ∧ ∀ c ∈ cs, internalCall c

theorem Internal.of_calls (calls : s'.calls = s.calls) : Internal s s' :=
  ⟨[], by simp [calls], by simp⟩

theorem Internal.trans (first : Internal s s') (second : Internal s' s'') : Internal s s'' := by
  obtain ⟨cs, calls, internal⟩ := first
  obtain ⟨cs', calls', internal'⟩ := second
  refine ⟨cs ++ cs', by rw [calls', calls, List.append_assoc], fun c member => ?_⟩
  rcases List.mem_append.mp member with old | new
  · exact internal c old
  · exact internal' c new

/-- A call that ended the process before it sent or applied anything. -/
theorem Sim.ends (sim : Sim level c g) {f : Fault (Fin n) α}
    (ended : (c.srv i).handle env input = .error f) (internal : Internal (c.srv i) f.server) :
    Sim level (c.call i env input reply) g := by
  obtain ⟨cs, calls, internal⟩ := internal
  have new : packetsOf i (newCalls (c.srv i) f.server) = [] := by
    rw [newCalls, calls, List.drop_left, packetsOf_internal internal]
  unfold Cluster.call
  simp only [ended, new, List.append_nil]
  apply sim.down
  rw [calls, appliedOf_append, appliedOf_internal internal, List.append_nil]

end Compose

/-! ## Nothing the history sees -/

section Alike

variable {level : Level} {i : Fin n} {g : History n α} {s s' : Server (Fin n) α}

/-- `s'` differs from `s` in nothing the history records. -/
structure Alike (s s' : Server (Fin n) α) : Prop where
  chain : IndexChain s → IndexChain s'
  node : s'.node = s.node
  replicas : s'.replicas = s.replicas
  currentTerm : s'.currentTerm = s.currentTerm
  votedFor : s'.votedFor = s.votedFor
  state : s'.state = s.state
  entries : s'.log.entries = s.log.entries
  commitIdx : s'.commitIdx = s.commitIdx
  bare : s'.nodes.map Node.bare = s.nodes.map Node.bare

theorem members_of_bare (bare : s'.nodes.map Node.bare = s.nodes.map Node.bare) :
    s'.nodes.map Node.member = s.nodes.map Node.member := by
  have same := congrArg (List.map Node.member) bare
  simpa [Function.comp_def] using same

theorem ServerSim.alike (sim : ServerSim level g i s) (alike : Alike s s') :
    ServerSim level g i s' where
  chain := alike.chain sim.chain
  node := alike.node.trans sim.node
  replicas := alike.replicas.trans sim.replicas
  members := (members_of_bare alike.bare).trans sim.members
  term_nonneg := alike.currentTerm ▸ sim.term_nonneg
  cur := sim.cur.trans alike.currentTerm.symm
  log := sim.log.trans alike.entries.symm
  vote := by rw [alike.currentTerm, alike.votedFor]; exact sim.vote
  self := by rw [alike.state, alike.votedFor]; exact sim.self
  leads := by rw [alike.state, alike.currentTerm, alike.entries]; exact sim.leads
  follows := by rw [alike.state, alike.currentTerm]; exact sim.follows
  stands := by rw [alike.state, alike.currentTerm, alike.entries]; exact sim.stands
  voters := by
    rw [alike.state, alike.currentTerm]
    intro candidate nd member granted peer
    obtain ⟨nd₀, old, same⟩ := exists_peer alike.bare member
    obtain ⟨id, -, -, flag⟩ := Node.of_bare same
    rw [← id] at peer ⊢
    exact sim.voters candidate nd₀ old (flag.trans granted) peer
  matches_ := by
    rw [alike.state, alike.currentTerm]
    intro leader nd member peer
    obtain ⟨nd₀, old, same⟩ := exists_peer alike.bare member
    obtain ⟨id, -, idx, -⟩ := Node.of_bare same
    rw [← id] at peer ⊢
    rw [← idx]
    exact sim.matches_ leader nd₀ old peer
  holds := by rw [alike.currentTerm, alike.entries, alike.commitIdx]; exact sim.holds
  commits := by rw [alike.currentTerm, alike.entries, alike.commitIdx]; exact sim.commits

theorem Good.alike (good : Good level g i s) (alike : Alike s s') : Good level g i s' :=
  ⟨good.matched, good.stamped, good.safe, good.server.alike alike⟩

/-- A peer's record is written: a candidate has its vote if it is flagged, and a leader its
acknowledgement up to the new match index. -/
theorem Good.updNode (good : Good level g i s) {f : Node (Fin n) → Node (Fin n)}
    (same : ∀ nd, (f nd).member = nd.member) (source : Fin n)
    (voters : s.state = .candidate → g.vote source s.currentTerm = some i)
    (matches_ : s.state = .leader → ∀ nd, (f nd).matchIdx ≤ (g.acked source s.currentTerm : Int)) :
    Good level g i (s.updNode source f) := by
  have sim := good.server
  have ids : ∀ nd, (f nd).id = nd.id := fun nd => congrArg Prod.fst (same nd)
  refine ⟨good.matched, good.stamped, good.safe, ?_⟩
  exact
    { chain := (advances_updNode s source _ sim.chain).1
      node := sim.node
      replicas := sim.replicas
      members := (map_updNode same source).trans sim.members
      term_nonneg := sim.term_nonneg
      cur := sim.cur
      log := sim.log
      vote := sim.vote
      self := sim.self
      leads := sim.leads
      follows := sim.follows
      stands := sim.stands
      voters := fun candidate nd member granted peer => by
        obtain ⟨nd₀, old, rfl⟩ := List.mem_map.mp member
        by_cases here : nd₀.id = source
        · rw [if_pos here, ids, here]
          exact voters candidate
        · rw [if_neg here] at granted peer ⊢
          exact sim.voters candidate nd₀ old granted peer
      matches_ := fun leader nd member peer => by
        obtain ⟨nd₀, old, rfl⟩ := List.mem_map.mp member
        by_cases here : nd₀.id = source
        · rw [if_pos here, ids, here]
          exact matches_ leader nd₀
        · rw [if_neg here] at peer ⊢
          exact sim.matches_ leader nd₀ old peer
      holds := sim.holds
      commits := sim.commits }

/-- A change the history does not see, with no packet sent. -/
theorem Moves.of_alike (good : Good level g i s) (alike : Alike s s')
    (calls : ∃ cs, s'.calls = s.calls ++ cs ∧ packetsOf i cs = []) : Moves level i g s g s' := by
  obtain ⟨cs, extended, none_⟩ := calls
  exact ⟨.refl i g, good.alike alike, cs, extended, by simp [none_]⟩

theorem alike_of_sent {who : Fin n → Prop} (sent : Sent who s s') : Alike s s' :=
  ⟨fun chain => (sent.quiet.advances chain).1, sent.node, by rw [sent.core], sent.currentTerm,
    sent.votedFor, sent.state, by rw [sent.log], sent.commitIdx, sent.bare⟩

variable {ety : Entry (Fin n) α}

theorem alike_of_appliedNext (next : AppliedNext s s' ety) : Alike s s' := by
  have core := next.core
  exact ⟨fun chain => (next.advances chain).1, by rw [core], by rw [core], by rw [core],
    by rw [core], by rw [core], by rw [core], by rw [core], by rw [core]⟩

variable {env : Env α}

/-- The apply loop. -/
theorem Moves.of_apply {done : Bool} (good : Good level g i s)
    (ran : s.applyCommitted env = .ok (s', done)) : Moves level i g s g s' := by
  refine applyCommitted_keeps (I := fun t => Moves level i g s g t) ?_ (.refl good) ran
  intro t t' ety moves next
  refine moves.trans (.of_alike moves.good (alike_of_appliedNext next) ⟨_, by rw [next.core], ?_⟩)
  rfl

theorem compactLog_entries (s : Server (Fin n) α) : s.compactLog.log.entries = s.log.entries := by
  unfold Server.compactLog
  split
  · rfl
  · rfl

theorem Moves.of_compactLog (good : Good level g i s) : Moves level i g s g s.compactLog := by
  have advances := advances_compactLog s
  have entries := compactLog_entries s
  unfold Server.compactLog at advances entries ⊢
  split
  · exact .refl good
  · rename_i enough
    rw [if_neg enough] at advances entries
    refine .of_alike good
      ⟨fun chain => (advances chain).1, rfl, rfl, rfl, rfl, rfl, entries, rfl, rfl⟩ ⟨_, rfl, ?_⟩
    unfold packetsOf
    rw [List.filterMap_eq_nil_iff]
    intro c member
    obtain ⟨p, -, rfl⟩ := List.mem_map.mp member
    rfl

/-- A server all of whose entries are plain never removes itself. -/
theorem Good.normal (good : Good level g i s) {idx : Int} (found : s.entryFromIdx idx = some ety) :
    ety.type = .normal := by
  have at_ := good.server.chain.wf.getAtIdx_some found
  have chained := good.matched.log_chained i
  rw [good.server.log] at chained
  exact (stamped_of_chained good.stamped chained _ _ at_).2.2.1

/-- The apply loop returns. -/
theorem Good.applies (good : Good level g i s) {f : Fault (Fin n) α} :
    s.applyCommitted env ≠ .error f := by
  intro ended
  obtain ⟨t, ety, kept, found, removes, -⟩ := applyLoop_error (I := fun t => Good level g i t)
    (fun t t' ety kept next => kept.alike (alike_of_appliedNext next)) _ good ended
  rw [kept.normal found] at removes
  cases removes

end Alike

/-! ## Peers -/

section Peers

variable {level : Level} {i : Fin n} {g : History n α} {s : Server (Fin n) α}

theorem ServerSim.seated (sim : ServerSim level g i s) : Seated i s :=
  ⟨sim.node, sim.members⟩

end Peers

/-! ## Sends of a leader -/

section Leader

variable {level : Level} {i : Fin n} {g : History n α} {s s' : Server (Fin n) α}

theorem termBefore_succ {ι : Type} {l : List (Entry ι α)} {k : Nat} {e : Entry ι α}
    (at_ : l[k]? = some e) : termBefore none l (k + 1) = e.term := by
  simp [termBefore, at_]

/-- The header of an empty message of a leader whose log is `l`. -/
theorem mkAppendentries_empty (chain : IndexChain s) {nextIdx : Int} (pos : 1 ≤ nextIdx)
    (none_ : logGetFromIdx s.log nextIdx = []) :
    (s.mkAppendentries nextIdx).prevLogTerm = -1 ∨ (s.mkAppendentries nextIdx).prevLogIdx = 0 ∨
      (s.mkAppendentries nextIdx).prevLogIdx = s.log.entries.length ∧ 0 < s.log.entries.length ∧
        (s.mkAppendentries nextIdx).prevLogTerm =
          termBefore none s.log.entries s.log.entries.length := by
  have length := chain.wf.length_eq
  by_cases first : 1 < nextIdx
  · simp only [Server.mkAppendentries, if_pos first]
    cases found : s.entryFromIdx (nextIdx - 1) with
    | none => exact Or.inl rfl
    | some e =>
      right; right
      obtain ⟨low, high⟩ := logGetAtIdx_bounds found
      have outside := chain.wf.getFromIdx_nil pos none_
      have at_ := chain.wf.getAtIdx_some found
      have last : s.log.entries.length = (nextIdx - 1 - 1).toNat + 1 := by omega
      refine ⟨by omega, by omega, ?_⟩
      rw [last, termBefore_succ at_]
  · exact Or.inr (Or.inl (by simp [Server.mkAppendentries, if_neg first]))

/-- What a leader sends is true of the history. -/
theorem aeSim_of_sends (matched : g.Matched Entry.term) (stamped : ∀ t, Stamped (g.chain t))
    (chain : IndexChain s) (led : g.led s.currentTerm = some i)
    (log : s.log.entries = g.chain s.currentTerm)
    (commits : level.agrees → Covered g s.currentTerm (s.log.entries.take s.commitIdx.toNat))
    {m : MsgAppendentries (Fin n) α} (sends : s.Sends m) : AeSim level g i m := by
  obtain ⟨nextIdx, pos, packet⟩ := sends
  have low := chain.applied_le
  have high := chain.commit_le
  have length := chain.wf.length_eq
  have front := chain.front_le
  have nonneg := chain.wf.front_nonneg
  have commit : level.agrees → s.commitIdx ≤ 0 ∨
      ∃ u m, u ≤ s.currentTerm ∧ g.Committed u m ∧ s.commitIdx ≤ (m : Int) := by
    intro agrees
    rcases commits agrees with nil | ⟨u, m, early, committed, inside⟩
    · left
      have short := congrArg List.length nil
      simp only [List.length_take, List.length_nil] at short
      omega
    · right
      refine ⟨u, m, early, committed, ?_⟩
      have short := inside.length_le
      simp only [List.length_take] at short
      omega
  unfold sendAppendentriesOpt at packet
  split at packet
  · rename_i none_
    obtain rfl := List.mem_singleton.mp packet
    refine ⟨led, Or.inl none_, fun e only => ?_, fun _ => ?_, commit⟩
    · rw [none_] at only
      cases only
    rcases mkAppendentries_empty chain pos none_ with behind | zero | ⟨prev, some_, before⟩
    · exact Or.inl behind
    · exact Or.inr (Or.inl zero)
    · refine Or.inr (Or.inr ⟨s.log.entries.length, prev, some_, ?_, ?_, ?_, ?_⟩)
      · rw [log]; exact matched.base_le _
      · rw [log]; rfl
      · rw [before, log]; rfl
      · rw [prev]
        change s.commitIdx ≤ _
        omega
  · obtain ⟨e, member, rfl⟩ := List.mem_map.mp packet
    have inLog : e ∈ s.log.entries := by
      have member := List.mem_of_mem_take member
      change e ∈ logGetFromIdx s.log nextIdx at member
      obtain ⟨-, -, k, range⟩ := chain.wf.getFromIdx_eq (List.ne_nil_of_mem member)
      rw [range] at member
      exact List.mem_of_mem_drop (List.mem_of_mem_take member)
    obtain ⟨k, at_⟩ := List.mem_iff_getElem?.mp inLog
    rw [log] at at_
    obtain ⟨-, head, -⟩ := stamped _ k e at_
    refine ⟨led, Or.inr ⟨e, rfl⟩, fun e' only => ?_, fun none_ => by simp at none_, commit⟩
    obtain rfl : e = e' := by simpa using only
    exact ⟨k, by simp [head], at_, by simp [head]; rfl⟩

/-- The sends of a leader. -/
theorem Moves.of_sent (good : Good level g i s) (leader : s.state = .leader)
    (sent : Sent (fun id => s.node ≠ some id) s s') : Moves level i g s g s' := by
  obtain ⟨cs, calls, each⟩ := sent.sends
  refine ⟨.refl i g, good.alike (alike_of_sent sent), cs, calls, fun p member => ?_⟩
  obtain ⟨c, made, packet⟩ := List.mem_filterMap.mp member
  obtain ⟨id, m, rfl, other, sends⟩ := each c made
  cases packet
  obtain ⟨led, log, -⟩ := good.server.leads leader
  rw [good.server.node] at other
  exact ⟨fun self => other (congrArg some self), aeSim_of_sends good.matched good.stamped
    good.server.chain led log good.server.commits sends⟩

end Leader

end Cyclone
