/-
# Cluster.Elections — terms, votes and leaders

The handlers that move the history's terms and votes: a later term (`raise`), standing on a
timeout (`stand`), the answer to a request for votes (`grant`), and the count of the
answers, which may win the election (`elect`).
-/
import Cyclone.Cluster.Moves

namespace Cyclone

open Cyclone.Raft Cyclone.Theory

set_option autoImplicit false

variable {n : Nat} {α : Type}
variable {level : Level} {i : Fin n} {g : History n α} {s s' : Server (Fin n) α}

/-! ## A later term -/

variable {t : Int}

theorem frame_raise (up : g.cur i ≤ t) : Frame i g (g.raise i t) := by
  refine ⟨TermChain.le_raise up, fun j other => ?_, fun _ _ => rfl, fun _ _ _ => rfl,
    fun _ _ _ => rfl, fun _ _ _ led => led, fun _ _ _ _ => rfl⟩
  exact Function.update_of_ne other t g.cur

/-- A term nobody reached has no vote of its server, no candidacy and no leadership. -/
theorem Good.unreached (good : Good level g i s) (later : s.currentTerm < t) :
    g.vote i t = none ∧ g.cand i t = none ∧ g.led t ≠ some i ∧ g.acked i t = 0 := by
  have cur := good.server.cur
  have unstood : g.cand i t = none := by
    cases stood : g.cand i t with
    | none => rfl
    | some l =>
      have := good.matched.cand_cur i t (by rw [stood]; rfl)
      omega
  refine ⟨?_, unstood, fun led => ?_, good.matched.acked_cur i t (by omega)⟩
  · cases voted : g.vote i t with
    | none => rfl
    | some c =>
      have := good.matched.vote_cur i t c voted
      omega
  · rw [good.matched.led_cand t i led] at unstood
    cases unstood

/-- A server takes over a later term as a follower. -/
theorem Moves.of_raise (good : Good level g i s) (later : s.currentTerm < t) :
    Moves level i g s (g.raise i t) (s.setCurrentTerm t).becomeFollower := by
  have sim := good.server
  have up : g.cur i ≤ t := by rw [sim.cur]; omega
  obtain ⟨unvoted, -, unled, unacked⟩ := good.unreached later
  have frame := frame_raise up
  have cur : (g.raise i t).cur i = t := by simp [TermChain.raise]
  have chain := (((quiet_setCurrentTerm s t).trans (quiet_becomeFollower _)).advances sim.chain).1
  rw [setCurrentTerm_of_lt later] at chain ⊢
  refine ⟨frame, ⟨good.matched.raise up, good.stamped, fun agrees => (good.safe agrees).raise up,
    ?_⟩, [.persistTerm t], rfl, by simp [packetsOf]⟩
  exact
    { chain := chain
      node := sim.node
      replicas := sim.replicas
      members := sim.members
      term_nonneg := le_of_lt (lt_of_le_of_lt sim.term_nonneg later)
      cur := cur
      log := sim.log
      vote := unvoted
      toRoleSim := .follower rfl unled
      holds := fun _ => Or.inl (by
        change (g.chain t).take (g.acked i t) <+: _
        rw [unacked]
        exact List.nil_prefix)
      commits := fun agrees =>
        (sim.commits agrees).mono good.matched frame.le (le_of_lt later) }

/-- A candidate gives up within its term. -/
theorem Good.follower (good : Good level g i s) (below : s.state ≠ .leader) :
    Good level g i s.becomeFollower := by
  have sim := good.server
  refine ⟨good.matched, good.stamped, good.safe, ?_⟩
  exact
    { chain := ((quiet_becomeFollower s).advances sim.chain).1
      node := sim.node
      replicas := sim.replicas
      members := sim.members
      term_nonneg := sim.term_nonneg
      cur := sim.cur
      log := sim.log
      vote := sim.vote
      toRoleSim := .follower rfl (sim.follows below)
      holds := sim.holds
      commits := sim.commits }

/-! ## Standing -/

/-- The newest entry's term is what a candidate reports. -/
theorem lastLogTerm_eq (chain : IndexChain s) : s.lastLogTerm = lastTerm s.log.entries := by
  have length := chain.wf.length_eq
  unfold Server.lastLogTerm lastTerm
  by_cases some_ : 0 < s.currentIdx
  · rw [if_pos some_]
    obtain ⟨e, found⟩ := chain.newest some_
    have at_ := chain.wf.getAtIdx_some found
    rw [show s.currentIdx = s.log.back from rfl, found, List.getLast?_eq_getElem?,
      show s.log.entries.length - 1 = (s.log.back - 1).toNat by omega, at_]
    rfl
  · have none_ : s.log.entries.length = 0 := by
      simp only [Server.currentIdx, logGetCurrentIdx] at some_
      omega
    rw [if_neg some_, List.length_eq_zero_iff.mp none_]
    rfl

theorem frame_stand (fresh : g.vote i (g.cur i) = none) (unstood : g.cand i (g.cur i) = none) :
    Frame i g (g.stand i) := by
  refine ⟨TermChain.le_stand fresh unstood, fun _ _ => rfl, fun _ _ => rfl, fun j other t => ?_,
    fun _ _ _ => rfl, fun _ _ _ led => led, fun _ _ _ _ => rfl⟩
  rw [TermChain.stand_vote, if_neg fun both => other both.1]

/-- An election timeout. -/
theorem Moves.of_stand (env : Env α) (good : Good level g i s) :
    Moves level i g s ((g.raise i (s.currentTerm + 1)).stand i) (s.raftBecomeCandidate env) := by
  have sim := good.server
  have later : s.currentTerm < s.currentTerm + 1 := by omega
  obtain ⟨unvoted, unstood, unled, unacked⟩ := good.unreached later
  have chain := ((quiet_raftBecomeCandidate env s).advances sim.chain).1
  have members := (quiet_raftBecomeCandidate env s).members
  have up : g.cur i ≤ s.currentTerm + 1 := by rw [sim.cur]; omega
  obtain ⟨h, raised⟩ : ∃ h, h = g.raise i (s.currentTerm + 1) := ⟨_, rfl⟩
  have cur : h.cur i = s.currentTerm + 1 := by
    simp [raised, TermChain.raise]
  have fresh : h.vote i (h.cur i) = none := by rw [cur, raised]; exact unvoted
  have unstood' : h.cand i (h.cur i) = none := by rw [cur, raised]; exact unstood
  have log : h.log i = s.log.entries := by rw [raised]; exact sim.log
  have matched : h.Matched Entry.term := raised ▸ good.matched.raise up
  have older : ∀ e ∈ h.log i, e.term < h.cur i := by
    intro e member
    have bound := good.matched.log_le i e (by rwa [sim.log, ← log])
    rw [sim.cur] at bound
    omega
  have frame : Frame i g (h.stand i) :=
    (raised ▸ frame_raise up : Frame i g h).trans (frame_stand fresh unstood')
  have stood : (h.stand i).cand i (s.currentTerm + 1) = some s.log.entries := by
    rw [TermChain.stand_cand, if_pos ⟨rfl, cur.symm⟩, log]
  have voted : (h.stand i).vote i (s.currentTerm + 1) = some i := by
    rw [TermChain.stand_vote, if_pos ⟨rfl, cur.symm⟩]
  obtain ⟨cs, after, each⟩ := raftBecomeCandidate_spec env s
  rw [← raised]
  rw [after] at chain members ⊢
  refine ⟨frame, ⟨matched.stand fresh unstood' older, ?_, fun agrees => ?_, ?_⟩, _, rfl, ?_⟩
  · rw [raised]
    exact good.stamped
  · have safe : h.Safe := raised ▸ (good.safe agrees).raise up
    exact safe.stand unstood' matched
  · exact
      { chain := chain
        node := sim.node
        replicas := sim.replicas
        members := members.trans sim.members
        term_nonneg := by
          have := sim.term_nonneg
          simp only
          omega
        cur := cur
        log := log
        vote := voted.trans sim.node.symm
        self := fun _ => sim.node
        leads := fun role => by cases role
        follows := fun _ => by rw [raised]; exact unled
        stands := fun _ => stood
        voters := fun _ nd member granted => by
          obtain ⟨nd₀, -, rfl⟩ := List.mem_map.mp member
          cases granted
        matches_ := fun role => by cases role
        holds := fun _ => Or.inl (by
          rw [raised]
          change (g.chain (s.currentTerm + 1)).take (g.acked i (s.currentTerm + 1)) <+: _
          rw [unacked]
          exact List.nil_prefix)
        commits := fun agrees =>
          (sim.commits agrees).mono good.matched frame.le (le_of_lt later) }
  · intro p member
    rw [packetsOf_append] at member
    obtain ⟨c, made, packet⟩ := List.mem_filterMap.mp (by simpa [packetsOf] using member)
    obtain ⟨id, other, rfl⟩ := each c made
    cases packet
    rw [sim.node] at other
    refine ⟨fun self => other (congrArg some self), sim.node, _, stood, ?_, ?_⟩
    · exact sim.chain.wf.length_eq.symm
    · exact lastLogTerm_eq sim.chain

/-! ## Voting -/

variable {c : Fin n}

theorem frame_grant (fresh : g.vote i (g.cur i) = none) : Frame i g (g.grant i c) := by
  refine ⟨TermChain.le_grant fresh, fun _ _ => rfl, fun _ _ => rfl, fun j other t => ?_,
    fun _ _ _ => rfl, fun _ _ _ led => led, fun _ _ _ _ => rfl⟩
  rw [TermChain.grant_vote, if_neg fun both => other both.1]

variable {l : List (Entry (Fin n) α)}

/-- A follower that has not voted votes for a candidate with a log as up to date as its own. -/
theorem Good.grant (good : Good level g i s) (follower : s.state = .follower)
    (unvoted : s.votedFor = none) (stood : g.cand c s.currentTerm = some l)
    (upToDate : TermChain.UpToDate Entry.term l s.log.entries) :
    Good level (g.grant i c) i (s.voteForNodeid (some c)) ∧ Frame i g (g.grant i c) ∧
      (g.grant i c).vote i s.currentTerm = some c := by
  have sim := good.server
  have fresh : g.vote i (g.cur i) = none := by rw [sim.cur, sim.vote, unvoted]
  have frame := frame_grant (c := c) fresh
  have voted : (g.grant i c).vote i s.currentTerm = some c := by
    rw [TermChain.grant_vote, if_pos ⟨rfl, sim.cur.symm⟩]
  rw [← sim.cur] at stood
  refine ⟨⟨good.matched.grant fresh (by rw [stood]; rfl), good.stamped, fun agrees => ?_, ?_⟩,
    frame, voted⟩
  · exact (good.safe agrees).grant fresh good.matched stood (by rw [sim.log]; exact upToDate)
  · have advances : Advances s (s.voteForNodeid (some c)) :=
      advances_of_same rfl rfl rfl rfl rfl rfl
        ⟨[.persistVote (some c)], rfl, by simp [Callback.inert]⟩
    exact
      { chain := (advances sim.chain).1
        node := sim.node
        replicas := sim.replicas
        members := sim.members
        term_nonneg := sim.term_nonneg
        cur := sim.cur
        log := sim.log
        vote := voted
        toRoleSim := .follower follower (sim.follows (by rw [follower]; exact Role.noConfusion))
        holds := sim.holds
        commits := fun agrees => (sim.commits agrees).mono good.matched frame.le (le_refl _) }

variable {vr : MsgRequestvote (Fin n)}

/-- What `__should_grant_vote` checks. -/
theorem upToDate_of_shouldGrantVote (good : Good level g i s) (idx : vr.lastLogIdx = l.length)
    (term : vr.lastLogTerm = lastTerm l) (granted : s.shouldGrantVote vr = some true) :
    s.currentTerm ≤ vr.term ∧ s.votedFor = none ∧
      TermChain.UpToDate Entry.term l s.log.entries := by
  have chain := good.server.chain
  have length := chain.wf.length_eq
  unfold Server.shouldGrantVote at granted
  split at granted
  · cases granted
  · rename_i current
    split at granted
    · cases granted
    · rename_i unvoted
      refine ⟨by omega, not_not.mp unvoted, fun ev last => ?_⟩
      have lastAt : s.log.entries[s.log.entries.length - 1]? = some ev := by
        rwa [List.getLast?_eq_getElem?] at last
      have some_ : 0 < s.log.entries.length := by
        have := (List.getElem?_eq_some_iff.mp lastAt).1
        omega
      rw [if_neg (by simp only [Server.currentIdx, logGetCurrentIdx]; omega)] at granted
      obtain ⟨e, found, newer⟩ := Option.map_eq_some_iff.mp granted
      have at_ := chain.wf.getAtIdx_some found
      simp only [decide_eq_true_eq] at newer
      simp only [Server.currentIdx, logGetCurrentIdx] at newer at_
      rw [show (s.log.back - 1).toNat = s.log.entries.length - 1 by omega, lastAt] at at_
      cases at_
      have nonneg : 0 ≤ ev.term := by
        have chained := good.matched.log_chained i
        rw [good.server.log] at chained
        exact (stamped_of_chained good.stamped chained _ _ lastAt).2.2.2
      -- an empty log reports term 0 and index 0, and neither beats an entry
      cases newest : l.getLast? with
      | none =>
        rw [List.getLast?_eq_none_iff] at newest
        rw [newest] at idx term
        simp only [lastTerm, List.getLast?_nil, Option.map_none, Option.getD_none,
          List.length_nil] at idx term
        omega
      | some e =>
        refine ⟨e, rfl, ?_⟩
        rw [term, idx] at newer
        simp only [lastTerm, newest, Option.map_some, Option.getD_some] at newer
        omega

/-- The server after a message of a later term. -/
def raisedTo (s : Server (Fin n) α) (t : Int) : Server (Fin n) α :=
  if s.currentTerm < t then (s.setCurrentTerm t).becomeFollower else s

/-- A later term in a message, or none. -/
theorem Moves.of_raised (good : Good level g i s) (t : Int) :
    ∃ g', Moves level i g s g' (raisedTo s t) := by
  unfold raisedTo
  split
  · rename_i later
    exact ⟨_, .of_raise good later⟩
  · exact ⟨g, .refl good⟩

theorem raised_term (s : Server (Fin n) α) (t : Int) :
    (raisedTo s t).currentTerm = max s.currentTerm t := by
  unfold raisedTo
  split
  · rename_i later
    rw [setCurrentTerm_of_lt later]
    change t = _
    omega
  · omega

variable {source : Fin n}

/-- A server never asserts away a request for votes: a server that has not voted is a follower. -/
theorem recvRequestvote_moves (good : Good level g i s)
    (packet : PacketSim level g ⟨source, i, .requestvote vr⟩) :
    ∃ s' r g', s.raftRecvRequestvote vr = .ok (s', r) ∧ Moves level i g s g' s' ∧
      PacketSim level g' ⟨i, source, .requestvoteResponse r⟩ := by
  obtain ⟨other, candidate, l, stood, idx, term⟩ := packet
  obtain ⟨h, raise⟩ := Moves.of_raised good vr.term
  have reached := raised_term s vr.term
  unfold Server.raftRecvRequestvote
  rw [← raisedTo]
  generalize raisedTo s vr.term = t at raise reached ⊢
  simp only
  have chain := raise.good.server.chain
  cases granted : t.shouldGrantVote vr with
  | none =>
    exfalso
    unfold Server.shouldGrantVote at granted
    split at granted
    · cases granted
    · split at granted
      · cases granted
      · split at granted
        · cases granted
        · rename_i some_
          have length := chain.wf.length_eq
          simp only [Server.currentIdx, logGetCurrentIdx] at some_
          obtain ⟨e, found⟩ := chain.newest (by omega)
          simp only [Server.currentIdx, logGetCurrentIdx, found, Option.map_some] at granted
          cases granted
  | some verdict =>
    cases verdict with
    | false => exact ⟨t, _, h, rfl, raise, fun self => other self.symm, fun no => by cases no⟩
    | true =>
      obtain ⟨current, unvoted, upToDate⟩ :=
        upToDate_of_shouldGrantVote raise.good idx term granted
      have follower : t.state = .follower := by
        by_contra role
        have voted := raise.good.server.self role
        rw [unvoted] at voted
        cases voted
      rw [follower]
      have same : t.currentTerm = vr.term := by omega
      obtain ⟨voter, frame, voted⟩ := raise.good.grant follower unvoted
        (same ▸ raise.frame.le.cand _ _ _ stood) upToDate
      simp only [reduceCtorEq, or_self, if_false, candidate]
      refine ⟨_, _, h.grant i source, rfl, ?_, fun self => other self.symm, fun _ => voted⟩
      have cast : Moves level i h t (h.grant i source) (t.voteForNodeid (some source)) :=
        ⟨frame, voter, [.persistVote (some source)], rfl, by simp [packetsOf]⟩
      have quiet : Alike (t.voteForNodeid (some source))
          { t.voteForNodeid (some source) with currentLeader := none, timeoutElapsed := 0 } :=
        ⟨fun chain => { chain with }, rfl, rfl, rfl, rfl, rfl, rfl, rfl, rfl⟩
      exact (raise.trans cast).trans (.of_alike voter quiet ⟨[], by simp, rfl⟩)

/-! ## Winning -/

/-- A vote of the current term is noted. -/
theorem Good.flag (good : Good level g i s) (candidate : s.state = .candidate)
    (voted : g.vote source s.currentTerm = some i) :
    Good level g i (s.updNode source (·.voteForMe true)) := by
  refine good.updNode (f := (·.voteForMe true)) (fun _ => rfl) source (fun _ => voted) fun leader => ?_
  rw [candidate] at leader
  cases leader

/-- A majority by the server's count is a majority of votes. -/
theorem Good.won (good : Good level g i s) (candidate : s.state = .candidate)
    (major : Server.votesIsMajority s.nodes.length s.nvotesForMe = true) :
    ∃ Q, Majority Q ∧ ∀ j ∈ Q, g.vote j s.currentTerm = some i := by
  have sim := good.server
  have self : s.votedFor = some i := sim.self (by rw [candidate]; exact Role.noConfusion)
  obtain ⟨Q, majority, each⟩ := sim.seated.won major
  refine ⟨Q, majority, fun j member => ?_⟩
  rcases each j member with rfl | ⟨nd, inNodes, rfl, other, granted⟩
  · exact sim.vote.trans self
  · exact sim.voters candidate nd inNodes granted other

/-- Nobody else leads the term a candidate won. -/
theorem Good.unled (good : Good level g i s) (below : s.state ≠ .leader)
    (won : ∃ Q, Majority Q ∧ ∀ j ∈ Q, g.vote j s.currentTerm = some i) :
    g.led s.currentTerm = none := by
  cases led : g.led s.currentTerm with
  | none => rfl
  | some d =>
    obtain ⟨Q, major, votes⟩ := won
    obtain ⟨R, major', votes'⟩ := good.matched.led_quorum _ d led
    obtain ⟨j, inQ, inR⟩ := major.meet major'
    have same := (votes j inQ).symm.trans (votes' j inR)
    exact absurd (led.trans same.symm) (good.server.follows below)

theorem frame_elect (matched : g.Matched Entry.term) (open_ : g.led (g.cur i) = none) :
    Frame i g (g.elect i) := by
  refine ⟨TermChain.le_elect open_ matched, fun _ _ => rfl, fun _ _ => rfl, fun _ _ _ => rfl,
    fun j other t => ?_, fun j other t led => ?_, fun j other t led => ?_⟩
  · rw [TermChain.elect_acked, if_neg fun both => other both.1]
  · rw [TermChain.elect_led] at led
    split at led
    · exact absurd (Option.some.inj led).symm other
    · exact led
  · rw [TermChain.elect_chain]
    split
    · rename_i here
      rw [here, open_] at led
      cases led
    · rfl

/-- A candidate takes the lead. -/
theorem Moves.of_elect (env : Env α) (good : Good level g i s) (candidate : s.state = .candidate)
    (won : ∃ Q, Majority Q ∧ ∀ j ∈ Q, g.vote j s.currentTerm = some i) :
    Moves level i g s (g.elect i) (s.raftBecomeLeader env) := by
  have sim := good.server
  have open_ : g.led (g.cur i) = none := by
    rw [sim.cur]
    exact good.unled (by rw [candidate]; exact Role.noConfusion) won
  have stood : g.cand i (g.cur i) = some (g.log i) := by
    rw [sim.cur, sim.log]
    exact sim.stands candidate
  have won' : ∃ Q, Majority Q ∧ ∀ j ∈ Q, g.vote j (g.cur i) = some i := by rwa [sim.cur]
  have frame := frame_elect good.matched open_
  have matched := good.matched.elect open_ stood won'
  have stamped : ∀ t, Stamped ((g.elect i).chain t) := by
    intro t
    rw [TermChain.elect_chain]
    split
    · exact stamped_of_chained good.stamped (good.matched.log_chained i)
    · exact good.stamped t
  have led : (g.elect i).led s.currentTerm = some i := by
    rw [TermChain.elect_led, if_pos sim.cur.symm]
  have chained : (g.elect i).chain s.currentTerm = s.log.entries := by
    rw [TermChain.elect_chain, if_pos sim.cur.symm, sim.log]
  have acked : (g.elect i).acked i s.currentTerm = s.log.entries.length := by
    rw [TermChain.elect_acked, if_pos ⟨rfl, sim.cur.symm⟩, sim.log]
  have commits : level.agrees → Covered (g.elect i) s.currentTerm
      (s.log.entries.take s.commitIdx.toNat) := fun agrees =>
    (sim.commits agrees).mono good.matched frame.le (le_refl _)
  have lead := raftBecomeLeader_spec env sim.seated.nodup
  have chain := ((quiet_raftBecomeLeader env s).advances sim.chain).1
  have members := (quiet_raftBecomeLeader env s).members
  obtain ⟨cs, calls, each⟩ := lead.sends
  generalize s.raftBecomeLeader env = s' at lead chain members calls
  have core := lead.core
  have log : s'.log = s.log := by rw [core]
  have term : s'.currentTerm = s.currentTerm := by rw [core]
  have commit : s'.commitIdx = s.commitIdx := by rw [core]
  have state : s'.state = .leader := by rw [core]
  have node : s'.node = s.node := by rw [core]
  have vote : s'.votedFor = s.votedFor := by rw [core]
  have replicas : s'.replicas = s.replicas := by rw [core]
  have members' := members.trans sim.members
  refine ⟨frame, ⟨matched, stamped, fun agrees => ?_, ?_⟩, cs, calls, fun p member => ?_⟩
  · exact (good.safe agrees).elect open_ good.matched stood won'
  · exact
      { chain := chain
        node := node.trans sim.node
        replicas := replicas.trans sim.replicas
        members := members'
        term_nonneg := term ▸ sim.term_nonneg
        cur := sim.cur.trans term.symm
        log := by rw [log]; exact sim.log
        vote := by rw [term, vote]; exact sim.vote
        self := fun _ => vote.trans (sim.self (by rw [candidate]; exact Role.noConfusion))
        leads := fun _ => by
          rw [term, log]
          exact ⟨led, chained.symm, acked⟩
        follows := fun role => absurd state role
        stands := fun role => by rw [state] at role; cases role
        voters := fun role => by rw [state] at role; cases role
        matches_ := fun _ nd member peer => by
          obtain ⟨nd₀, old, same⟩ := exists_peer members member
          have ids : nd₀.id = nd.id := congrArg Prod.fst same
          have votes : nd₀.voting = nd.voting := congrArg Prod.snd same
          have zero := lead.reset nd member (ids ▸ List.mem_map_of_mem old)
            (by rw [sim.node]; exact fun self => peer (Option.some.inj self).symm)
            (votes ▸ sim.seated.voting old)
          rw [zero]
          exact Int.natCast_nonneg _
        holds := fun _ => Or.inl (by
          rw [term, log, chained]
          exact List.take_prefix _ _)
        commits := fun agrees => by
          rw [term, log, commit]
          exact commits agrees }
  · obtain ⟨c, made, packet⟩ := List.mem_filterMap.mp member
    obtain ⟨id, m, rfl, other, sends⟩ := each c made
    cases packet
    rw [sim.node] at other
    exact ⟨fun self => other (congrArg some self),
      aeSim_of_sends matched stamped sim.chain led chained.symm commits sends⟩

theorem recvRequestvoteResponse_moves (env : Env α) (good : Good level g i s)
    {r : MsgRequestvoteResponse} (packet : PacketSim level g ⟨source, i, .requestvoteResponse r⟩) :
    ∃ g', Moves level i g s g' (s.raftRecvRequestvoteResponse env source r) := by
  unfold Server.raftRecvRequestvoteResponse
  split
  · exact ⟨g, .refl good⟩
  · rename_i candidate
    have candidate := not_not.mp candidate
    split
    · rename_i later
      exact ⟨_, .of_raise good later⟩
    · split
      · exact ⟨g, .refl good⟩
      · rename_i same
        have same := not_not.mp same
        split
        · rename_i granted
          have noted := good.flag candidate (same ▸ packet.2 granted)
          have step : Moves level i g s g (s.updNode source (·.voteForMe true)) :=
            ⟨.refl i g, noted, [], by simp [Server.updNode], by simp [packetsOf]⟩
          simp only
          split
          · rename_i major
            exact ⟨_, step.trans (.of_elect env noted candidate (noted.won candidate major))⟩
          · exact ⟨g, step⟩
        · exact ⟨g, .refl good⟩

end Cyclone
