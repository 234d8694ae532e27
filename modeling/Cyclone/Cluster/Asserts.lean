/-
# Cluster.Asserts — no assertion fails

The assertions of the four message handlers and of `raft_set_commit_idx`, over whole runs.
Each of them is a fact of the relation: what a server committed starts the chain of its
term, so a truncation point below the commit index never conflicts (463, 498); a leader's
log holds what its peers acknowledged (332); a server that voted for nobody is a
follower (610).

Four of them need a condition on the delivered message beyond agreement: an empty message
into a released part of the log (480), an empty message for an empty log that names a
commit index (124), and a refusal naming an index the leader does not have (326).
-/
import Cyclone.Cluster.Safety

namespace Cyclone

open Cyclone.Raft Cyclone.Theory

set_option autoImplicit false

variable {n : Nat} {α : Type}

/-! ## The conditions -/

section Conditions

variable (s : Server (Fin n) α)

/-- An empty message shorter than the log does not end in its released part. -/
def NoReleasedCut (ae : MsgAppendentries (Fin n) α) : Prop :=
  s.currentTerm ≤ ae.term → ae.entries = [] → 0 < ae.prevLogIdx →
    ae.prevLogIdx + 1 < s.currentIdx → s.log.front ≤ ae.prevLogIdx

/-- A message without entries and without a previous entry that names a commit index does not meet
an empty log. -/
def NoBareCommit (ae : MsgAppendentries (Fin n) α) : Prop :=
  s.currentTerm ≤ ae.term → ae.entries = [] → ae.prevLogIdx = 0 → 0 < ae.leaderCommit →
    0 < s.currentIdx

/-- A refusal of the leader's term by a peer that holds the leader's whole log names no index
beyond it. -/
def NoLongRefusal (source : Fin n) (r : MsgAppendentriesResponse) : Prop :=
  s.state = .leader → r.success = false → r.term = s.currentTerm →
    ∀ nd ∈ s.getNode source, nd.matchIdx = s.currentIdx → r.currentIdx ≤ s.currentIdx

instance (ae : MsgAppendentries (Fin n) α) : Decidable (NoReleasedCut s ae) :=
  inferInstanceAs (Decidable (_ → _ → _ → _ → _))

instance (ae : MsgAppendentries (Fin n) α) : Decidable (NoBareCommit s ae) :=
  inferInstanceAs (Decidable (_ → _ → _ → _ → _))

instance (source : Fin n) (r : MsgAppendentriesResponse) : Decidable (NoLongRefusal s source r) :=
  inferInstanceAs (Decidable (_ → _ → _ → _))

/-- What a delivered message must meet in its receiver's state. -/
def CarefulMsg (source : Fin n) : Msg (Fin n) α → Prop
  | .appendentries ae => Orderly s ae ∧ NoReleasedCut s ae ∧ NoBareCommit s ae
  | .appendentriesResponse r => NoLongRefusal s source r
  | _ => True

instance (source : Fin n) : (msg : Msg (Fin n) α) → Decidable (CarefulMsg s source msg)
  | .appendentries ae =>
    inferInstanceAs (Decidable (Orderly s ae ∧ _ ∧ _))
  | .appendentriesResponse r => inferInstanceAs (Decidable (NoLongRefusal s source r))
  | .requestvote _ | .requestvoteResponse _ => isTrue trivial

end Conditions

/-- Every delivered message is met with care. -/
def Careful (c : Cluster n α) : Label n α → Prop
  | .deliver k _ => ∀ p ∈ c.net[k]?, CarefulMsg (c.srv p.dst) p.src p.msg
  | _ => True

instance (c : Cluster n α) : (l : Label n α) → Decidable (Careful c l)
  | .deliver k _ =>
    inferInstanceAs (Decidable (∀ p ∈ c.net[k]?, CarefulMsg (c.srv p.dst) p.src p.msg))
  | .periodic .. | .recvEntry .. | .recvEntryBatch .. | .checkpoint .. => isTrue trivial

variable {c : Cluster n α}

theorem Careful.orderly {l : Label n α} (careful : Careful c l) : c.Meets Orderly l := by
  cases l with
  | deliver k env =>
    intro p sent
    have met := careful p sent
    cases message : p.msg with
    | appendentries ae =>
      rw [message] at met
      exact met.1
    | _ => trivial
  | _ => trivial

/-! ## Delivered entries -/

section Entries

variable {level : Level} {g : History n α} {i source : Fin n} {s : Server (Fin n) α}
variable {ae : MsgAppendentries (Fin n) α}

/-- Below the commit index a log reads as the chain of its term. -/
theorem Received.committed_read (agrees : level.agrees) (rc : Received level g i s source ae)
    {idx : Int} {x : Entry (Fin n) α} (found : s.entryFromIdx idx = some x)
    (below : idx ≤ s.commitIdx) : (g.chain ae.term)[(idx - 1).toNat]? = some x := by
  have chain := rc.good.server.chain
  have length := chain.wf.length_eq
  have nonneg := chain.wf.front_nonneg
  have low := (logGetAtIdx_bounds found).1
  have high := chain.commit_le
  have at_ := chain.wf.getAtIdx_some found
  have starts := rc.good.commit_starts agrees rc.led
  rw [rc.term] at starts
  rw [getElem?_prefix_eq starts (by rw [List.length_take]; omega),
    List.getElem?_take_of_lt (by omega), at_]

variable {k : Nat}

section Below

variable (agrees : level.agrees) (rc : Received level g i s source ae) (head : AeHead g ae k)
include agrees rc head

/-- A previous entry below the commit index agrees. -/
theorem Received.no_conflict (pos : 0 < k) {e : Entry (Fin n) α}
    (found : s.entryFromIdx k = some e) (below : (k : Int) ≤ s.commitIdx) : e.term = ae.prevLogTerm := by
  have read := rc.committed_read agrees found below
  obtain ⟨y, at_, term⟩ := head.last pos
  rw [show ((k : Int) - 1).toNat = k - 1 by omega, at_] at read
  cases read
  exact term

/-- An empty message does not cut below the commit index. -/
theorem Received.no_empty_cut (retained : NoReleasedCut s ae) (empty : ae.entries = []) (pos : 0 < k)
    (long : (k : Int) + 1 < s.currentIdx) : s.commitIdx ≤ k := by
  have prev := head.prev
  by_contra beyond
  have front := retained (le_of_eq rc.term) empty (by omega) (by omega)
  simp only [Server.currentIdx, logGetCurrentIdx] at long
  obtain ⟨x, found⟩ := rc.good.server.chain.wf.getAtIdx_exists
    (show s.log.front < ae.prevLogIdx + 1 by omega) (by omega)
  have read := rc.committed_read agrees found (by omega)
  rw [show (ae.prevLogIdx + 1 - 1).toNat = k by omega] at read
  refine rc.admits.2.1 (Level.keeps_of_agrees agrees) (le_of_eq rc.term) empty (by omega) ?_ x found
    (rc.good.matched.own_term (head.heartbeat empty pos).1 read)
  simp only [Server.currentIdx, logGetCurrentIdx]
  omega

/-- No entry of a message conflicts below the commit index. -/
theorem Received.no_entry_conflict {j : Nat} (conflict : s.Conflict ae.entries (ae.prevLogIdx + 1) j) :
    s.commitIdx < ae.prevLogIdx + 1 + j := by
  have prev := head.prev
  obtain ⟨e, x, at_, found, differ⟩ := conflict
  by_contra beyond
  have read := rc.committed_read agrees found (by omega)
  obtain ⟨rfl, only⟩ := rc.sim.only at_
  rw [show (ae.prevLogIdx + 1 + ((0 : Nat) : Int) - 1).toNat = k by omega, head.entry e only] at read
  cases read
  exact differ rfl

end Below

/-- After a message was taken the log is empty only if it was and the message adds nothing. -/
theorem Takes.back_zero {l : List (Entry (Fin n) α)} (takes : Takes s ae k l)
    (reach : k ≤ s.log.entries.length) (none_ : l = []) :
    s.log.entries = [] ∧ k = 0 ∧ ae.entries = [] := by
  cases takes with
  | kept held =>
    have zero : k = 0 := by
      rw [none_] at reach
      simpa using reach
    refine ⟨none_, zero, ?_⟩
    cases entries : ae.entries with
    | nil => rfl
    | cons e es =>
      obtain ⟨x, found, -⟩ := held 0 e (by rw [entries]; exact Nat.zero_lt_succ _)
        (by rw [entries]; rfl)
      exfalso
      have at_ : s.log.entries[(ae.prevLogIdx + 1 + ((0 : Nat) : Int) - 1).toNat]? = some x := by
        unfold Server.entryFromIdx logGetAtIdx at found
        split at found
        · cases found
        · split at found
          · cases found
          · exact found
      rw [none_] at at_
      cases at_
  | cut empty pos long above =>
    have short := congrArg List.length none_
    rw [List.length_take, List.length_nil] at short
    omega
  | wrote e only above fresh =>
    have short := congrArg List.length none_
    simp at short

/-- No assertion of `raft_recv_appendentries` fails. -/
theorem recvAppendentries_asserts (two : 2 ≤ n) (good : Good .safe g i s)
    (packet : PacketSim .safe g ⟨source, i, .appendentries ae⟩)
    (careful : CarefulMsg s source (.appendentries ae)) {line : Nat} {t : Server (Fin n) α} :
    s.raftRecvAppendentries source ae ≠ .error ⟨.assertion line, t⟩ := by
  intro ended
  obtain ⟨orderly, retained, filled⟩ := careful
  have receive := fun current => Received.of_adopted good packet (orderly.admits _) current
  have quiet := quiet_adopted s ae
  have agrees : Level.safe.agrees := trivial
  have outcome := raftRecvAppendentries_spec s source ae
  rw [ended] at outcome
  cases outcome with
  | conflictFault present current pos e found differ below =>
    obtain ⟨h, moves, rc⟩ := receive current
    obtain ⟨k, head⟩ := rc.sim.head present
    have prev := head.prev
    refine differ (rc.no_conflict agrees head (by omega) ?_ ?_)
    · rw [Server.entryFromIdx, quiet.log, ← prev]
      exact found
    · rw [quiet.commitIdx]
      omega
  | checked present current checked accepted =>
    obtain ⟨h, moves, rc⟩ := receive current
    obtain ⟨k, head⟩ := rc.sim.head present
    have prev := head.prev
    have back : (s.adopted ae).currentIdx = s.currentIdx := by
      rw [Server.currentIdx, quiet.log]
      rfl
    have before : AgreesBefore h (s.adopted ae) ae k := by
      refine rc.agreesBefore head fun pos base => ?_
      rw [Server.entryFromIdx, quiet.log]
      exact checked pos (quiet.logBase ▸ base)
    cases accepted with
    | commitFault j cut scan f failed =>
      have taken := (advances_taken scan rc.good.server.chain).1
      obtain ⟨-, behind, zero⟩ := followCommit_error taken failed
      have length := taken.wf.length_eq
      obtain ⟨takes, rewrote⟩ := rc.takes head two before scan
      obtain ⟨none_, first, empty⟩ := takes.back_zero
        (before.reach rc.good.server.chain head) (List.length_eq_zero_iff.mp (by omega))
      have same := rewrote.core
      have commit : ((s.adopted ae).taken ae j cut).commitIdx = s.commitIdx := by
        rw [same]
        exact quiet.commitIdx
      have chain := good.server.chain
      have low := chain.applied_le
      have front := chain.front_le
      have nonneg := chain.wf.front_nonneg
      have length' := chain.wf.length_eq
      rw [quiet.log] at none_
      rw [none_] at length'
      have some_ := filled current empty (by omega) (by omega)
      simp only [Server.currentIdx, logGetCurrentIdx, List.length_nil] at some_ length'
      omega
    | emptyFault empty pos long below =>
      have above := rc.no_empty_cut agrees head ?_ empty (by omega) (by omega)
      · omega
      · intro _ _ pos' long'
        rw [quiet.log]
        exact retained current empty pos' (back ▸ long')
    | scanFault j held conflict below =>
      have above := rc.no_entry_conflict agrees head conflict
      omega

end Entries

/-! ## Answers and local calls -/

section Local

variable {g : History n α} {i source : Fin n} {s : Server (Fin n) α}

variable {line : Nat} {t : Server (Fin n) α}

/-- No assertion of `raft_recv_appendentries_response` fails. -/
theorem recvAppendentriesResponse_asserts (two : 2 ≤ n) (env : Env α) (good : Good .safe g i s)
    {r : MsgAppendentriesResponse}
    (packet : PacketSim .safe g ⟨source, i, .appendentriesResponse r⟩)
    (careful : CarefulMsg s source (.appendentriesResponse r)) :
    s.raftRecvAppendentriesResponse env source r ≠ .error ⟨.assertion line, t⟩ := by
  intro ended
  rcases recvAppendentriesResponse_moves two env good packet with
    ⟨s', g', ran, -⟩ | ⟨f, -, -, -, leader, term, refused, nd, found, news, stuck⟩
  · rw [ran] at ended
    cases ended
  · obtain ⟨member, rfl⟩ := mem_of_getNode found
    obtain ⟨-, log, -⟩ := good.server.leads leader
    have acked := good.server.matches_ leader nd member packet.1
    have bound := good.matched.acked_le nd.id s.currentTerm
    have length := good.server.chain.wf.length_eq
    rw [← log] at bound
    -- the peer's cursor falls to its match only when the match is the whole log
    have bounded := careful leader refused term nd found
    simp only [Server.currentIdx, logGetCurrentIdx] at bounded stuck
    unfold Node.setNextIdx at stuck
    simp only at stuck
    split at stuck
    · omega
    · have whole : nd.matchIdx = s.log.back := by omega
      have := bounded whole
      omega

/-- The apply loop ends the process only by its `exit`. -/
theorem applyCommitted_exit {env : Env α} {f : Fault (Fin n) α}
    (ended : s.applyCommitted env = .error f) : f.cause = .exit := by
  obtain ⟨t, ety, -, -, -, rfl⟩ := applyLoop_error (I := fun _ => True)
    (fun _ _ _ _ _ => trivial) _ trivial ended
  rfl

theorem periodicTick_asserts (env : Env α) (msec : Int) :
    s.periodicTick env msec ≠ .error ⟨.assertion line, t⟩ := by
  refine periodicTick_rule (P := fun r => r ≠ .error ⟨.assertion line, t⟩) env rfl
    (fun _ _ _ same => ?_) (fun _ _ _ same => ?_) (fun _ _ _ _ _ same => ?_)
    (fun _ _ _ same => ?_) <;> cases same

/-- No assertion stands in a call that is not a delivery. -/
theorem local_asserts (env : Env α) {input : Input (Fin n) α}
    (local_ : ∀ source msg, input ≠ .recv source msg) :
    s.handle env input ≠ .error ⟨.assertion line, t⟩ := by
  intro ended
  cases input with
  | periodic msec =>
    have failed := error_of_map ended
    unfold Server.raftPeriodic at failed
    split at failed
    · rename_i f early
      cases failed
      exact periodicTick_asserts env msec early
    · split at failed
      · rename_i f early
        cases failed
        cases applyCommitted_exit early
      · cases failed
      · cases failed
  | recvEntry e =>
    have failed := error_of_map ended
    unfold Server.raftRecvEntry at failed
    simp only at failed
    split at failed
    · cases failed
    · split at failed
      · cases failed
      · split at failed
        · cases failed
        · cases failed
  | recvEntryBatch es =>
    have failed := error_of_map ended
    unfold Server.raftRecvEntryBatch at failed
    split at failed
    · cases failed
    · simp only at failed
      split at failed
      · cases failed
      · split at failed
        · cases failed
        · cases failed
  | checkpoint idx => cases ended
  | recv source msg => exact local_ source msg rfl

end Local

/-! ## A cluster of one sends nothing -/

section Alone

variable {s s' s'' : Server (Fin 1) α}

/-- From `s` to `s'` nothing was sent, and the peers are the same. -/
structure Mute (s s' : Server (Fin 1) α) : Prop where
  node : s'.node = s.node
  ids : s'.nodes.map (·.id) = s.nodes.map (·.id)
  calls : ∃ cs, s'.calls = s.calls ++ cs ∧ packetsOf 0 cs = []

theorem Mute.refl (s : Server (Fin 1) α) : Mute s s := ⟨rfl, rfl, [], by simp, rfl⟩

theorem Mute.trans (first : Mute s s') (second : Mute s' s'') : Mute s s'' := by
  obtain ⟨cs, calls, none_⟩ := first.calls
  obtain ⟨cs', calls', none'⟩ := second.calls
  refine ⟨second.node.trans first.node, second.ids.trans first.ids, cs ++ cs', ?_, ?_⟩
  · rw [calls', calls, List.append_assoc]
  · rw [packetsOf_append, none_, none', List.append_nil]

/-- The one server has nobody to send to. -/
theorem packetsOf_others {cs : List (Callback (Fin 1) α)}
    (others : ∀ p ∈ packetsOf 0 cs, p.dst ≠ 0) : packetsOf 0 cs = [] := by
  rw [List.eq_nil_iff_forall_not_mem]
  intro p member
  exact others p member (Subsingleton.elim p.dst 0)

/-- A round of sends to others. -/
theorem Mute.of_sends (self : s.node = some 0) (node : s'.node = s.node)
    (members : s'.nodes.map Node.member = s.nodes.map Node.member)
    (sends : ∃ cs, s'.calls = s.calls ++ cs ∧
      ∀ c ∈ cs, ∃ id m, c = .sendAppendentries id m ∧ s.node ≠ some id ∧ s.Sends m) : Mute s s' := by
  obtain ⟨cs, calls, each⟩ := sends
  have ids := congrArg (List.map Prod.fst) members
  refine ⟨node, by simpa [Function.comp_def, Node.member] using ids, cs, calls, ?_⟩
  apply packetsOf_others
  intro p member
  obtain ⟨c, made, packet⟩ := List.mem_filterMap.mp member
  obtain ⟨id, m, rfl, other, -⟩ := each c made
  cases packet
  exact fun same => other (self.trans (congrArg some same.symm))

theorem Mute.of_sent (self : s.node = some 0) (sent : Sent (fun id => s.node ≠ some id) s s') :
    Mute s s' :=
  .of_sends self sent.node sent.members sent.sends

theorem Mute.of_lead (env : Env α) (self : s.node = some 0) (nodup : s.NodupNodes) :
    Mute s (s.raftBecomeLeader env) := by
  have lead := raftBecomeLeader_spec env nodup
  exact .of_sends self (by rw [lead.core]) (quiet_raftBecomeLeader env s).members lead.sends

theorem Mute.of_stand (env : Env α) (self : s.node = some 0) :
    Mute s (s.raftBecomeCandidate env) := by
  obtain ⟨cs, after, each⟩ := raftBecomeCandidate_spec env s
  have members := (quiet_raftBecomeCandidate env s).members
  have ids := congrArg (List.map Prod.fst) members
  refine ⟨by rw [after], by simpa [Function.comp_def, Node.member] using ids, _, by rw [after], ?_⟩
  rw [packetsOf_append]
  have none_ : packetsOf 0 cs = [] := by
    apply packetsOf_others
    intro p member
    obtain ⟨c, made, packet⟩ := List.mem_filterMap.mp member
    obtain ⟨id, other, rfl⟩ := each c made
    cases packet
    exact fun same => other (self.trans (congrArg some same.symm))
  rw [none_]
  rfl

theorem Mute.of_applied {ety : Entry (Fin 1) α} (next : AppliedNext s s' ety) : Mute s s' :=
  ⟨by rw [next.core], by rw [next.core], _, by rw [next.core], rfl⟩

theorem Mute.of_compactLog (s : Server (Fin 1) α) : Mute s s.compactLog := by
  unfold Server.compactLog
  split
  · exact .refl s
  · refine ⟨rfl, rfl, _, rfl, ?_⟩
    apply packetsOf_internal
    intro c member
    obtain ⟨p, -, rfl⟩ := List.mem_map.mp member
    rfl

theorem Mute.of_append {es : List (Entry (Fin 1) α)} {isLeader : Bool}
    {prev : Option (Entry (Fin 1) α)} {idx : Int} (plain : ∀ e ∈ es, e.type = .normal)
    (appended : Appended s s' (stampFrom isLeader prev idx es)) : Mute s s' := by
  have normal : ∀ e ∈ stampFrom isLeader prev idx es, e.type = .normal :=
    stampFrom_forall (P := fun e => e.type = .normal) (fun _ _ _ plain => plain) plain
  have core := appended.core
  rw [applyCfg_normal s normal] at core
  exact ⟨by rw [core], by rw [core], _, by rw [core], packetsOf_offers _ _⟩

theorem mute_periodicTick (env : Env α) (self : s.node = some 0) (nodup : s.NodupNodes)
    (msec : Int) : Mute s (Server.after (s.periodicTick env msec)) := by
  have ticked : Mute s { s with timeoutElapsed := s.timeoutElapsed + msec } :=
    ⟨rfl, rfl, [], by simp, rfl⟩
  have lead : ∀ t, Server.Ticks env { s with timeoutElapsed := s.timeoutElapsed + msec } t →
      Mute s t := by
    rintro t (rfl | ⟨-, -, -, rfl⟩)
    · exact ticked
    · exact ticked.trans (.of_lead env self nodup)
  refine periodicTick_rule (P := fun r => Mute s (Server.after r)) env rfl
    (fun t ticks _ => lead t ticks) (fun t ticks _ => ?_) (fun t ticks _ _ _ => ?_)
    (fun t ticks _ => lead t ticks)
  · have own : t.node = some 0 := (lead t ticks).node.trans self
    exact (lead t ticks).trans (.of_sent own (sent_leaderTick env t msec))
  · have own : t.node = some 0 := (lead t ticks).node.trans self
    exact (lead t ticks).trans (.of_stand env own)

theorem mute_periodic (env : Env α) (self : s.node = some 0) (nodup : s.NodupNodes) (msec : Int) :
    Mute s (Server.after (s.raftPeriodic env msec)) := by
  have tick := mute_periodicTick env self nodup msec
  have next : ∀ t t' ety, Mute s t → AppliedNext t t' ety → Mute s t' :=
    fun _ _ _ kept applied => kept.trans (.of_applied applied)
  unfold Server.raftPeriodic
  cases early : s.periodicTick env msec with
  | error f =>
    rw [early] at tick
    exact tick
  | ok t =>
    rw [early] at tick
    simp only
    cases applied : t.applyCommitted env with
    | error f =>
      obtain ⟨u, ety, kept, -, -, rfl⟩ :=
        applyLoop_error (I := fun u => Mute s u) next _ tick applied
      exact kept.trans ⟨rfl, rfl, _, rfl, rfl⟩
    | ok p =>
      obtain ⟨u, done⟩ := p
      have kept := applyCommitted_keeps (I := fun u => Mute s u) next tick applied
      cases done with
      | true => exact kept.trans (.of_compactLog u)
      | false => exact kept

theorem mute_sendRound (env : Env α) (self : s.node = some 0) :
    Mute s (if (s.sendRound env).nodes.length = 1 then
      { s.sendRound env with commitIdx := (s.sendRound env).currentIdx } else s.sendRound env) := by
  have sent := Mute.of_sent self (sent_sendRound env s)
  split
  · exact sent.trans ⟨rfl, rfl, [], by simp, rfl⟩
  · exact sent

theorem mute_recvEntry (env : Env α) (self : s.node = some 0) {e : MsgEntry (Fin 1) α}
    (plain : e.type = .normal) :
    Mute s (Server.after ((s.raftRecvEntry env e).map Prod.fst)) := by
  have unvoting : (Server.entryOf s.currentTerm e).isVotingCfgChange = false := by
    simp [Entry.isVotingCfgChange, Server.entryOf, plain]
  have normal : ∀ x ∈ [Server.entryOf s.currentTerm e], x.type = .normal := by
    intro x member
    rw [List.mem_singleton.mp member]
    exact plain
  have appended := Mute.of_append normal (raftAppendEntry_spec s (Server.entryOf s.currentTerm e))
  have own := appended.node.trans self
  unfold Server.raftRecvEntry
  simp only [unvoting, Bool.false_eq_true, false_and, if_false]
  split
  · exact .refl s
  · split
    · exact appended
    · exact appended.trans (mute_sendRound env own)

theorem mute_recvEntryBatch (env : Env α) (self : s.node = some 0) {es : List (MsgEntry (Fin 1) α)}
    (plain : ∀ e ∈ es, e.type = .normal) :
    Mute s (Server.after ((s.raftRecvEntryBatch env es).map Prod.fst)) := by
  have normal : ∀ x ∈ es.map (Server.entryOf s.currentTerm), x.type = .normal := by
    intro x member
    obtain ⟨e, inside, rfl⟩ := List.mem_map.mp member
    exact plain e inside
  unfold Server.raftRecvEntryBatch
  split
  · exact .refl s
  · simp only
    split
    · exact .refl s
    · rename_i detected _
      have noted : Mute s { s with votingCfgChangeLogIdx := detected } := ⟨rfl, rfl, [], by simp, rfl⟩
      have appended := noted.trans (Mute.of_append normal (raftAppendEntryBatch_spec
        { s with votingCfgChangeLogIdx := detected } _))
      have own := appended.node.trans self
      split
      · exact appended
      · exact appended.trans (mute_sendRound env own)

variable {input : Input (Fin 1) α}

/-- What a call of the one server leaves. -/
theorem mute_handle (env : Env α) (self : s.node = some 0) (nodup : s.NodupNodes)
    (plain : ∀ e, input = .recvEntry e → e.type = .normal)
    (plains : ∀ es, input = .recvEntryBatch es → ∀ e ∈ es, e.type = .normal)
    (local_ : ∀ source msg, input ≠ .recv source msg) :
    Mute s (Server.after ((s.handle env input).map Prod.fst)) := by
  cases input with
  | periodic msec =>
    have mute := mute_periodic env self nodup msec
    simp only [Server.handle]
    cases ran : s.raftPeriodic env msec with
    | ok t => rw [ran] at mute; exact mute
    | error f => rw [ran] at mute; exact mute
  | recvEntry e =>
    have mute := mute_recvEntry env self (plain e rfl)
    simp only [Server.handle]
    cases ran : s.raftRecvEntry env e with
    | ok p => rw [ran] at mute; exact mute
    | error f => rw [ran] at mute; exact mute
  | recvEntryBatch es =>
    have mute := mute_recvEntryBatch env self (plains es rfl)
    simp only [Server.handle]
    cases ran : s.raftRecvEntryBatch env es with
    | ok p => rw [ran] at mute; exact mute
    | error f => rw [ran] at mute; exact mute
  | checkpoint idx => exact ⟨rfl, rfl, [], (List.append_nil _).symm, rfl⟩
  | recv source msg => exact absurd rfl (local_ source msg)

/-- A cluster of one has an empty network. -/
structure Lone (c : Cluster 1 α) : Prop where
  net : c.net = []
  node : (c.srv 0).node = some 0
  nodup : (c.srv 0).NodupNodes

theorem lone_initial (cfg : Fin 1 → Config) : Lone (Cluster.initial cfg : Cluster 1 α) := by
  have boot : (Cluster.initial cfg : Cluster 1 α).srv 0 = Server.boot 0 1 (cfg 0) (List.finRange 1) :=
    rfl
  rw [boot_all] at boot
  refine ⟨rfl, by rw [boot], ?_⟩
  rw [Server.NodupNodes, boot]
  show (((List.finRange 1).map nodeNew).map (·.id)).Nodup
  decide

variable {c : Cluster 1 α}

theorem Lone.call (lone : Lone c) {env : Env α}
    (mute : Mute (c.srv 0) (Server.after (((c.srv 0).handle env input).map Prod.fst)))
    (answers : ∀ s' answer, (c.srv 0).handle env input = .ok (s', answer) → answer = none)
    (reply : Fin 1) : Lone (c.call 0 env input reply) := by
  have srv := congrFun (call_srv c 0 env input reply) 0
  rw [Function.update_self] at srv
  refine ⟨?_, by rw [srv, mute.node]; exact lone.node, ?_⟩
  · obtain ⟨cs, calls, none_⟩ := mute.calls
    unfold Cluster.call
    cases ran : (c.srv 0).handle env input with
    | ok p =>
      obtain ⟨s', answer⟩ := p
      obtain rfl := answers s' answer ran
      rw [ran] at calls
      simp only [newCalls, show s'.calls = (c.srv 0).calls ++ cs from calls, List.drop_left, none_,
        lone.net, ran]
      rfl
    | error f =>
      rw [ran] at calls
      simp only [newCalls, show f.server.calls = (c.srv 0).calls ++ cs from calls, List.drop_left,
        none_, lone.net, ran]
      rfl
  · unfold Server.NodupNodes
    rw [srv, mute.ids]
    exact lone.nodup

theorem Lone.step {c' : Cluster 1 α} {l : Label 1 α} (lone : Lone c) (taken : c.step l = some c') :
    Lone c' := by
  obtain ⟨i, env, input, reply, called, -, rfl⟩ := step_call taken
  obtain rfl : i = 0 := Subsingleton.elim i 0
  have silent : ∀ msg : Input (Fin 1) α, (∀ source m, msg ≠ .recv source m) → ∀ s' answer,
      (c.srv 0).handle env msg = .ok (s', answer) → answer = none := by
    intro msg local_ s' answer ran
    cases msg with
    | recv source m => exact absurd rfl (local_ source m)
    | checkpoint idx => cases ran; rfl
    | periodic msec =>
      obtain ⟨t, -, same⟩ := ok_of_map ran
      cases same
      rfl
    | recvEntry e =>
      obtain ⟨t, -, same⟩ := ok_of_map ran
      cases same
      rfl
    | recvEntryBatch es =>
      obtain ⟨t, -, same⟩ := ok_of_map ran
      cases same
      rfl
  have go : (∀ e, input = .recvEntry e → e.type = .normal) →
      (∀ es, input = .recvEntryBatch es → ∀ e ∈ es, e.type = .normal) →
      (∀ source msg, input ≠ .recv source msg) → Lone (c.call 0 env input reply) :=
    fun plain plains local_ => lone.call (mute_handle env lone.node lone.nodup plain plains local_)
      (silent input local_) reply
  cases l with
  | deliver k env' =>
    obtain ⟨p, sent, -⟩ := Option.map_eq_some_iff.mp called
    rw [lone.net] at sent
    cases sent
  | periodic j env' msec =>
    cases called
    exact go (fun e same => by cases same) (fun es same => by cases same)
      (fun source msg same => by cases same)
  | recvEntry j env' id data =>
    cases called
    exact go (fun e same => by cases same; rfl) (fun es same => by cases same)
      (fun source msg same => by cases same)
  | recvEntryBatch j env' es =>
    cases called
    refine go (fun e same => by cases same) (fun es' same e member => ?_)
      (fun source msg same => by cases same)
    cases same
    obtain ⟨x, -, rfl⟩ := List.mem_map.mp member
    rfl
  | checkpoint j env' idx =>
    cases called
    exact go (fun e same => by cases same) (fun es same => by cases same)
      (fun source msg same => by cases same)

end Alone

/-! ## Whole runs -/

/-- A delivery on a careful run does not fail an assertion. -/
theorem deliver_asserts (cfg : Fin n → Config) (target : ∀ i, 1 ≤ (cfg i).logTarget)
    (run : Path Cluster.step Careful (Cluster.initial cfg) c) {k : Nat} {p : Packet n α}
    (sent : c.net[k]? = some p) (running : c.up p.dst = true)
    (careful : CarefulMsg (c.srv p.dst) p.src p.msg) (env : Env α) {line : Nat}
    {t : Server (Fin n) α} :
    (c.srv p.dst).handle env (.recv p.src p.msg) ≠ .error ⟨.assertion line, t⟩ := by
  intro ended
  by_cases two : 2 ≤ n
  · have admits : Path Cluster.step (Cluster.Meets Level.safe.Admits) (Cluster.initial cfg) c :=
      run.mono fun t l careful => careful.orderly.mono fun s ae orderly => orderly.admits _
    obtain ⟨g, sim⟩ := sim_run two cfg target admits
    have good := sim.good running
    have packet := sim.packet p (List.mem_of_getElem? sent)
    obtain ⟨src, dst, msg⟩ := p
    simp only [Server.handle] at ended
    cases msg with
    | requestvote rv =>
      obtain ⟨s', r, g', ran, -⟩ := recvRequestvote_moves good packet
      have failed := error_of_map ended
      rw [ran] at failed
      cases failed
    | requestvoteResponse r => cases ended
    | appendentries ae =>
      exact recvAppendentries_asserts two good packet careful (error_of_map ended)
    | appendentriesResponse r =>
      exact recvAppendentriesResponse_asserts two env good packet careful (error_of_map ended)
  · have low := p.dst.isLt
    obtain rfl : n = 1 := by omega
    have lone : Lone c :=
      run.keeps (I := Lone) (lone_initial cfg) fun _ _ _ kept _ taken => kept.step taken
    rw [lone.net] at sent
    cases sent

/-- **No assertion fails.**  Along every careful run, whatever call a label makes next on a running
server does not fail an assertion. -/
theorem no_assertion_fails (cfg : Fin n → Config) (target : ∀ i, 1 ≤ (cfg i).logTarget)
    {c : Cluster n α} (run : Path Cluster.step Careful (Cluster.initial cfg) c) {l : Label n α}
    (careful : Careful c l) {i reply : Fin n} {env : Env α} {input : Input (Fin n) α}
    (called : c.callOf l = some (i, env, input, reply)) (running : c.up i = true) (line : Nat)
    (t : Server (Fin n) α) : (c.srv i).handle env input ≠ .error ⟨.assertion line, t⟩ := by
  cases l with
  | deliver k env' =>
    obtain ⟨p, sent, same⟩ := Option.map_eq_some_iff.mp called
    cases same
    exact deliver_asserts cfg target run sent running (careful p sent) env
  | periodic j env' msec =>
    cases called
    exact local_asserts env fun source msg same => by cases same
  | recvEntry j env' id data =>
    cases called
    exact local_asserts env fun source msg same => by cases same
  | recvEntryBatch j env' es =>
    cases called
    exact local_asserts env fun source msg same => by cases same
  | checkpoint j env' idx =>
    cases called
    exact local_asserts env fun source msg same => by cases same

/-- A careful run of three servers up to a heartbeat that commits, and the delivery of it. -/
theorem no_assertion_fails_heartbeat : ∃ c : Cluster 3 Nat,
    c.net[8]? = some ⟨0, 1, .appendentries ⟨1, 1, 1, 1, []⟩⟩ ∧ ∀ line t,
      (c.srv 1).handle (wideEnv 0) (.recv 0 (.appendentries ⟨1, 1, 1, 1, []⟩)) ≠
        .error ⟨.assertion line, t⟩ := by
  have run : ∃ c : Cluster 3 Nat, c ∈ exec Cluster.step Careful (Cluster.initial fun _ => smallCfg)
      [.tick 0 1000, .take 0, .take 2, .ask 0 11, .take 5, .take 7, .tick 0 1000] ∧
      c.net[8]? = some ⟨0, 1, .appendentries ⟨1, 1, 1, 1, []⟩⟩ ∧ c.up 1 = true ∧
          Careful c (.deliver 8 (wideEnv 0)) := by
    decide +kernel
  obtain ⟨c, path, sent, running, careful⟩ := Path.exists_of_exec run
  have called : c.callOf (.deliver 8 (wideEnv 0)) =
      some (1, wideEnv 0, .recv 0 (.appendentries ⟨1, 1, 1, 1, []⟩), 0) := by
    simp [Cluster.callOf, sent]
  exact ⟨c, sent, no_assertion_fails (fun _ => smallCfg) (fun _ => le_refl 1) path careful called
    running⟩

/-- Server 1 holds and has committed three entries; a heartbeat sent when the leader had one fails
the assertion at line 480. -/
theorem assertion_fails : ∃ (c : Cluster 3 Nat) (t : Server (Fin 3) Nat),
    Path Cluster.step anyStep (Cluster.initial fun _ => smallCfg) c ∧
      c.net[9]? = some ⟨0, 1, .appendentries ⟨1, 1, 1, 1, []⟩⟩ ∧ c.up 1 = true ∧
      (c.srv 1).handle (wideEnv 0) (.recv 0 (.appendentries ⟨1, 1, 1, 1, []⟩)) =
        .error ⟨.assertion 480, t⟩ := by
  have run : ∃ c : Cluster 3 Nat, c ∈ exec Cluster.step anyStep (Cluster.initial fun _ => smallCfg)
      [.tick 0 1000, .take 0, .take 2, .ask 0 11, .take 5, .take 6, .take 7, .tick 0 1000,
        .recvEntryBatch 0 (wideEnv 0) [(0, 12), (0, 13)], .take 11, .take 12, .take 16,
        .tick 0 1000, .take 17] ∧
      c.net[9]? = some ⟨0, 1, .appendentries ⟨1, 1, 1, 1, []⟩⟩ ∧ c.up 1 = true ∧
          (match (c.srv 1).handle (wideEnv 0) (.recv 0 (.appendentries ⟨1, 1, 1, 1, []⟩)) with
            | .error f => f.cause
            | .ok _ => .exit) = .assertion 480 := by
    decide +kernel
  obtain ⟨c, path, sent, running, cause⟩ := Path.exists_of_exec run
  cases ended : (c.srv 1).handle (wideEnv 0) (.recv 0 (.appendentries ⟨1, 1, 1, 1, []⟩)) with
  | ok p =>
    rw [ended] at cause
    cases cause
  | error f =>
    rw [ended] at cause
    obtain ⟨failed, t⟩ := f
    cases cause
    exact ⟨c, t, path, sent, running, ended⟩

end Cyclone
