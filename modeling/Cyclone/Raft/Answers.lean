/-
# Raft.Answers — newer terms and the commit rule

Two rules of the message handlers, each over every state of one server.  A message of a newer
term makes the receiver a follower of that term, except where a handler returns before it
compares terms: an answer to a vote that is not awaited, and an answer to a send that the
staleness filter drops.  And a leader's commit index moves only to an index that a majority of
the voting nodes has matched, under an entry of the current term.
-/
import Cyclone.Raft.Actions
import Mathlib.Data.Set.Finite.Lemmas

namespace Cyclone.Raft

set_option autoImplicit false

variable {ι α : Type} [DecidableEq ι] {env : Env α} {s s' : Server ι α}

set_option linter.unusedSectionVars false

/-! ## Newer terms -/

theorem term_setCurrentTerm {term : Int} (later : s.currentTerm < term) :
    (s.setCurrentTerm term).becomeFollower.currentTerm = term ∧
      (s.setCurrentTerm term).becomeFollower.state = .follower := by
  rw [setCurrentTerm_of_lt later]
  exact ⟨rfl, rfl⟩

variable {ae : MsgAppendentries ι α}

theorem role_adopted (later : s.currentTerm < ae.term) :
    (s.adopted ae).currentTerm = ae.term ∧ (s.adopted ae).state = .follower := by
  rw [Server.adopted, if_pos later]
  exact term_setCurrentTerm (by rw [heard_core]; exact later)

theorem role_cutAt (s : Server ι α) (cut : Option Int) :
    (s.cutAt cut).currentTerm = s.currentTerm ∧ (s.cutAt cut).state = s.state := by
  cases cut with
  | none => exact ⟨rfl, rfl⟩
  | some idx => exact ⟨rfl, rfl⟩

theorem role_taken {i : Nat} {cut : Option Int} (scan : Scan s ae i cut) :
    (s.taken ae i cut).currentTerm = s.currentTerm ∧ (s.taken ae i cut).state = s.state := by
  obtain ⟨s₁, appended, accepted⟩ := acceptEntries_spec (s.cutAt cut) scan.short
  obtain ⟨term, state⟩ := role_cutAt s cut
  rw [Server.taken, accepted, appended.core, applyCfg_core]
  exact ⟨term, state⟩

variable {source : ι} {r : MsgAppendentriesResponse}

/-- Past the term test nothing in `raft_recv_appendentries` touches the term or the role. -/
theorem raftRecvAppendentries_role (current : s.currentTerm ≤ ae.term)
    (ran : s.raftRecvAppendentries source ae = .ok (s', r)) :
    s'.currentTerm = (s.adopted ae).currentTerm ∧ s'.state = (s.adopted ae).state := by
  have outcome := raftRecvAppendentries_spec s source ae
  rw [ran] at outcome
  cases outcome with
  | stale older => omega
  | missing => exact ⟨rfl, rfl⟩
  | conflict => exact ⟨rfl, rfl⟩
  | checked _ _ _ outcome =>
    cases outcome with
    | accept i cut scan s₁ committed =>
      rw [(followCommit_commits committed).core]
      exact role_taken scan

theorem raftRecvAppendentries_adopts (later : s.currentTerm < ae.term)
    (ran : s.raftRecvAppendentries source ae = .ok (s', r)) :
    s'.currentTerm = ae.term ∧ s'.state = .follower := by
  obtain ⟨term, state⟩ := raftRecvAppendentries_role (le_of_lt later) ran
  obtain ⟨term', state'⟩ := role_adopted later
  exact ⟨term.trans term', state.trans state'⟩

theorem raftRecvRequestvote_adopts {vr : MsgRequestvote ι} {r : MsgRequestvoteResponse}
    (later : s.currentTerm < vr.term) (ran : s.raftRecvRequestvote vr = .ok (s', r)) :
    s'.currentTerm = vr.term ∧ s'.state = .follower := by
  have adopted := term_setCurrentTerm later
  unfold Server.raftRecvRequestvote at ran
  simp only [if_pos later] at ran
  split at ran
  · cases ran
  · split at ran
    · cases ran
    · cases ran
      exact adopted
  · cases ran
    exact adopted

/-- When a message of a newer term reaches the term test of its handler. -/
def TermTested (s : Server ι α) (nd : Node ι) : Msg ι α → Prop
  | .requestvote _ => True
  | .requestvoteResponse _ => s.state = .candidate
  | .appendentries _ => True
  | .appendentriesResponse r =>
    s.state = .leader ∧ ¬ (r.currentIdx ≤ nd.matchIdx ∧ nd.matchIdx ≠ 0)

variable {nd : Node ι}

/-- An answer that its handler returns from before the term test changes nothing. -/
theorem handleIncoming_untested {msg : Msg ι α} {answer : Option (Msg ι α)}
    (found : s.getNode source = some nd)
    (ran : s.handleIncoming env source msg = .ok (s', answer)) (untested : ¬ TermTested s nd msg) :
    s' = s := by
  cases msg with
  | requestvote => exact absurd trivial untested
  | appendentries => exact absurd trivial untested
  | requestvoteResponse r =>
    have idle : s.raftRecvRequestvoteResponse env source r = s := if_pos untested
    simp only [Server.handleIncoming, idle, Except.ok.injEq, Prod.mk.injEq] at ran
    exact ran.1.symm
  | appendentriesResponse r =>
    have idle : s.raftRecvAppendentriesResponse env source r = .ok s := by
      unfold Server.raftRecvAppendentriesResponse
      simp only [found]
      by_cases stale : r.currentIdx ≤ nd.matchIdx ∧ nd.matchIdx ≠ 0
      · rw [if_pos stale]
      · rw [if_neg stale, if_pos fun leads => untested ⟨leads, stale⟩]
    simp only [Server.handleIncoming, idle, Except.map, Except.ok.injEq, Prod.mk.injEq] at ran
    exact ran.1.symm

/-- **Newer terms.**  A message of a newer term from a known node leaves a follower of that term
exactly when its handler gets as far as its term test. -/
theorem newer_term_adopted_iff {source : ι} {nd : Node ι} {msg : Msg ι α}
    {answer : Option (Msg ι α)} (found : s.getNode source = some nd)
    (later : s.currentTerm < msg.term)
    (ran : s.handleIncoming env source msg = .ok (s', answer)) :
    (s'.currentTerm = msg.term ∧ s'.state = .follower) ↔ TermTested s nd msg := by
  constructor
  · rintro ⟨term, -⟩
    by_contra untested
    rw [handleIncoming_untested found ran untested] at term
    omega
  intro tested
  cases msg with
  | requestvote rv =>
    cases result : s.raftRecvRequestvote rv with
    | error f => simp [Server.handleIncoming, result, Except.map] at ran
    | ok p =>
      simp only [Server.handleIncoming, result, Except.map, Except.ok.injEq,
        Prod.mk.injEq] at ran
      rw [← ran.1]
      exact raftRecvRequestvote_adopts later result
  | appendentries ae =>
    cases result : s.raftRecvAppendentries source ae with
    | error f => simp [Server.handleIncoming, result, Except.map] at ran
    | ok p =>
      simp only [Server.handleIncoming, result, Except.map, Except.ok.injEq,
        Prod.mk.injEq] at ran
      rw [← ran.1]
      exact raftRecvAppendentries_adopts later result
  | requestvoteResponse r =>
    have candidate : s.state = .candidate := tested
    have newer : s.currentTerm < r.term := later
    have adopts : s.raftRecvRequestvoteResponse env source r =
        (s.setCurrentTerm r.term).becomeFollower := by
      unfold Server.raftRecvRequestvoteResponse
      rw [if_neg (not_not.mpr candidate), if_pos newer]
    simp only [Server.handleIncoming, adopts, Except.ok.injEq, Prod.mk.injEq] at ran
    rw [← ran.1]
    exact term_setCurrentTerm later
  | appendentriesResponse r =>
    have newer : s.currentTerm < r.term := later
    have adopts : s.raftRecvAppendentriesResponse env source r =
        .ok (s.setCurrentTerm r.term).becomeFollower := by
      unfold Server.raftRecvAppendentriesResponse
      simp only [found]
      rw [if_neg tested.2, if_neg (not_not.mpr tested.1), if_pos newer]
    simp only [Server.handleIncoming, adopts, Except.map, Except.ok.injEq,
      Prod.mk.injEq] at ran
    rw [← ran.1]
    exact term_setCurrentTerm later

/-- A leader of term 1 whose peer has matched entry 1. -/
def matchedLeader : Server (Fin 2) Nat :=
  let s := ((Server.raftNew 0 2
    smallCfg).raftAddNode 0 true).raftAddNode 1 false
  let s := ({ s with currentTerm := 1, state := .leader }.raftAppendEntry
    { term := 1, id := 0, type := .normal, data := 7, head := ⟨0, 0⟩ }).raftAppendEntry
    { term := 1, id := 1, type := .normal, data := 8, head := ⟨0, 0⟩ }
  s.updNode 1 fun nd => (nd.setNextIdx 3).setMatchIdx 1

/-- A failure of term 5 that reports the whole log makes the leader step down. -/
theorem newer_term_adopted_iff_leader : ∃ s' : Server (Fin 2) Nat,
    matchedLeader.handleIncoming (quietEnv 0) 1 (.appendentriesResponse ⟨5, false, 2, 0⟩) =
        .ok (s', none) ∧
      ((s'.currentTerm = 5 ∧ s'.state = .follower) ↔
        TermTested matchedLeader ((nodeNew 1).setNextIdx 3 |>.setMatchIdx 1)
          (.appendentriesResponse ⟨5, false, 2, 0⟩ : Msg (Fin 2) Nat)) := by
  have ran : matchedLeader.handleIncoming (quietEnv 0) 1 (.appendentriesResponse ⟨5, false, 2, 0⟩) =
      .ok ((matchedLeader.setCurrentTerm 5).becomeFollower, none) := by decide +kernel
  exact ⟨_, ran, newer_term_adopted_iff (by decide +kernel) (by decide +kernel) ran⟩

/-- One that reports no more than the peer had matched does not. -/
theorem newer_term_ignored :
    matchedLeader.state = .leader ∧ matchedLeader.currentTerm = 1 ∧
      (matchedLeader.getNode 1).isSome = true ∧
      matchedLeader.handleIncoming (quietEnv 0) 1 (.appendentriesResponse ⟨5, false, 1, 0⟩) =
        .ok (matchedLeader, none) := by
  decide +kernel

/-! ## The commit rule -/

/-- A voting node other than the server's own. -/
def Server.VotingPeer (s : Server ι α) (nd : Node ι) : Prop :=
  s.node ≠ some nd.id ∧ nd.voting = true

instance (s : Server ι α) (nd : Node ι) : Decidable (s.VotingPeer nd) :=
  inferInstanceAs (Decidable (_ ∧ _))

theorem countsFor_iff {point : Int} :
    s.countsFor point nd = true ↔ s.VotingPeer nd ∧ point ≤ nd.matchIdx ∧ 0 < nd.matchIdx ∧
      ∃ ety, s.entryFromIdx nd.matchIdx = some ety ∧ ety.term = s.currentTerm := by
  unfold Server.countsFor Server.VotingPeer
  cases found : s.entryFromIdx nd.matchIdx with
  | none => simp
  | some ety => simp; tauto

/-- The count reads nothing a send or an application changes. -/
theorem countP_countsFor (point : Int) (nodes : s'.nodes.map Node.bare = s.nodes.map Node.bare)
    (log : s'.log = s.log) (term : s'.currentTerm = s.currentTerm) (node : s'.node = s.node) :
    s'.nodes.countP (s'.countsFor point) = s.nodes.countP (s.countsFor point) := by
  have ofBare : ∀ t : Server ι α, t.countsFor point = t.countsFor point ∘ Node.bare :=
    fun _ => rfl
  have same : s'.countsFor point = s.countsFor point := by
    funext nd
    simp only [Server.countsFor, Server.entryFromIdx, log, term, node]
  rw [same, ofBare, ← List.countP_map, ← List.countP_map, nodes]

theorem numVotingNodes_of_bare (nodes : s'.nodes.map Node.bare = s.nodes.map Node.bare) :
    s'.numVotingNodes = s.numVotingNodes := by
  have ofBare : (fun nd : Node ι => nd.voting) = (fun nd => nd.voting) ∘ Node.bare := rfl
  rw [Server.numVotingNodes, Server.numVotingNodes, ofBare, ← List.countP_map, ← List.countP_map,
    nodes]

/-- The test of the commit rule, as it stands in a state whose commit index it has moved. -/
structure Server.Counted (s : Server ι α) : Prop where
  inside : s.commitIdx ≤ s.currentIdx
  majority : s.numVotingNodes / 2 < 1 + s.nodes.countP (s.countsFor s.commitIdx)

theorem Server.Counted.congr (counted : s.Counted)
    (nodes : s'.nodes.map Node.bare = s.nodes.map Node.bare) (log : s'.log = s.log)
    (term : s'.currentTerm = s.currentTerm) (node : s'.node = s.node)
    (commit : s'.commitIdx = s.commitIdx) : s'.Counted := by
  refine ⟨?_, ?_⟩
  · rw [Server.currentIdx, log, commit]
    exact counted.inside
  · rw [commit, numVotingNodes_of_bare nodes, countP_countsFor _ nodes log term node]
    exact counted.majority

/-- From `s` to `t` the voters stay, and the commit index stays or moved by the rule. -/
structure Obeys (s t : Server ι α) : Prop where
  voters : t.numVotingNodes = s.numVotingNodes
  rule : t.commitIdx = s.commitIdx ∨ s.commitIdx < t.commitIdx ∧ t.Counted

namespace Obeys

variable {t t' : Server ι α}

theorem of_still (voters : t.numVotingNodes = s.numVotingNodes)
    (commit : t.commitIdx = s.commitIdx) : Obeys s t :=
  ⟨voters, Or.inl commit⟩

/-- What leaves the counted data alone keeps the rule. -/
theorem congr (obeys : Obeys s t) (nodes : t'.nodes.map Node.bare = t.nodes.map Node.bare)
    (log : t'.log = t.log) (term : t'.currentTerm = t.currentTerm) (node : t'.node = t.node)
    (commit : t'.commitIdx = t.commitIdx) : Obeys s t' := by
  refine ⟨(numVotingNodes_of_bare nodes).trans obeys.voters, ?_⟩
  rw [commit]
  rcases obeys.rule with same | ⟨up, counted⟩
  · exact Or.inl same
  · exact Or.inr ⟨up, counted.congr nodes log term node commit⟩

theorem sent {who : ι → Prop} (obeys : Obeys s t) (sent : Sent who t t') : Obeys s t' :=
  obeys.congr sent.bare sent.log sent.currentTerm sent.node sent.commitIdx

theorem applied {ety : Entry ι α} (obeys : Obeys s t) (next : AppliedNext t t' ety) :
    Obeys s t' := by
  refine obeys.congr ?_ ?_ ?_ ?_ ?_ <;> rw [next.core]

theorem advance {point : Int} (voters : t.numVotingNodes = s.numVotingNodes)
    (commit : t.commitIdx = s.commitIdx) (ran : t.advanceCommit point = .ok t') : Obeys s t' := by
  unfold Server.advanceCommit at ran
  simp only at ran
  split at ran
  · rename_i rule
    obtain ⟨rfl, -, inside⟩ := setCommitIdx_ok ran
    exact ⟨voters, Or.inr ⟨commit ▸ rule.2, inside, rule.1⟩⟩
  · cases ran
    exact of_still voters commit

end Obeys

theorem numVotingNodes_updNode {f : Node ι → Node ι} (same : ∀ nd, (f nd).voting = nd.voting)
    (id : ι) : (s.updNode id f).numVotingNodes = s.numVotingNodes := by
  have asMap : ∀ t : Server ι α, t.numVotingNodes = (t.nodes.map (·.voting)).countP fun v => v := by
    intro t
    rw [List.countP_map]
    rfl
  rw [asMap, asMap, map_updNode same]

section Plain

variable {currentIdx : Int}
  (plain : ¬ (nd.voting = false ∧ s.votingCfgChangeLogIdx = -1 ∧ s.currentIdx ≤ currentIdx + 1 ∧
    nd.hasSufficientLog = false ∧ s.sendingCheckpoints = false))
include plain

/-- Without a promotion that is due, the callback leaves a flag at most. -/
theorem promote_plain (ran : s.promote env nd currentIdx = .ok s') :
    s'.numVotingNodes = s.numVotingNodes ∧ s'.commitIdx = s.commitIdx := by
  unfold Server.promote at ran
  split at ran
  · rename_i due
    have sending : s.sendingCheckpoints = true := by
      by_contra idle
      exact plain ⟨due.1, due.2.1, due.2.2.1, due.2.2.2, by simpa using idle⟩
    have flagged : s.raftHasSufficientLogs env nd.id = .ok (s, true) := if_pos sending
    rw [flagged] at ran
    cases ran
    exact ⟨numVotingNodes_updNode (by intro; rfl) _, rfl⟩
  · cases ran
    exact ⟨rfl, rfl⟩

theorem ackReceived_obeys (ran : s.ackReceived env nd currentIdx = .ok s') : Obeys s s' := by
  unfold Server.ackReceived at ran
  split at ran
  · cases ran
  simp only at ran
  split at ran
  · cases ran
  rename_i s₁ promoted
  obtain ⟨voters, commit⟩ := promote_plain (by exact plain) promoted
  rw [numVotingNodes_updNode (by intro; rfl)] at voters
  split at ran
  · cases ran
  rename_i s₂ advanced
  have obeys : Obeys s s₂ := .advance voters commit advanced
  split at ran
  · cases ran
  rename_i s₃ done applied
  cases ran
  refine applyCommitted_keeps (I := Obeys s) (fun _ _ _ obeys next => obeys.applied next) ?_ applied
  split
  · exact obeys.sent (sent_raftSendAppendentries _ (fun _ => True) _ _ trivial)
  · exact obeys

end Plain

theorem raftRecvAppendentriesResponse_obeys (plain : ¬ s.Due source r)
    (ran : s.raftRecvAppendentriesResponse env source r = .ok s') : Obeys s s' := by
  have still : Obeys s s := .of_still rfl rfl
  unfold Server.raftRecvAppendentriesResponse at ran
  split at ran
  · cases ran
    exact still
  rename_i nd found
  split at ran
  · cases ran
    exact still
  split at ran
  · cases ran
    exact still
  split at ran
  · rename_i later
    cases ran
    rw [setCurrentTerm_of_lt later]
    exact .of_still rfl rfl
  split at ran
  · cases ran
    exact still
  rename_i current
  split at ran
  · simp only at ran
    split at ran
    · cases ran
      have noted := still.sent (sent_updNode
        (fun nd => Node.bare_setNextIdx nd (min (r.currentIdx + 1) s.currentIdx)) (fun _ => True) s nd.id)
      exact noted.sent (sent_raftSendAppendentries _ (fun _ => True) _ _ trivial)
    · cases ran
  · rename_i positive
    refine ackReceived_obeys (fun due => plain ?_) ran
    obtain ⟨silent, open_, close, flag, idle⟩ := due
    exact ⟨⟨not_not.mp current, by simpa using positive⟩, ⟨open_, close, idle⟩, nd, found, silent,
      flag⟩

theorem numVotingNodes_pos (voting : s.selfVoting = some true) : 1 ≤ s.numVotingNodes := by
  unfold Server.selfVoting at voting
  obtain ⟨id, -, seen⟩ := Option.bind_eq_some_iff.mp voting
  obtain ⟨nd, found, votes⟩ := Option.map_eq_some_iff.mp seen
  exact List.countP_pos_iff.mpr ⟨nd, (mem_of_getNode found).1, votes⟩

/-- **Leader commit rule.**  When an answer moves the commit index of a leader that votes, and the
promotion callback does not append to the log, the new index is above the old one and inside the log,
and the leader with the voting peers that matched it are more than half of the voting nodes; unless
the leader votes alone, such peers can be chosen whose least matched index holds an entry of the
current term. -/
theorem commit_rule {source : ι} {r : MsgAppendentriesResponse}
    (voting : s.selfVoting = some true) (plain : ¬ s.Due source r)
    (ran : s.raftRecvAppendentriesResponse env source r = .ok s')
    (moved : s'.commitIdx ≠ s.commitIdx) :
    (s.commitIdx < s'.commitIdx ∧ s'.commitIdx ≤ s'.currentIdx) ∧
    s'.numVotingNodes <
      2 * (1 + s'.nodes.countP fun nd => s'.VotingPeer nd ∧ s'.commitIdx ≤ nd.matchIdx) ∧
    (s'.numVotingNodes ≠ 1 → ∃ peers : List (Node ι), peers.Sublist s'.nodes ∧
      (∀ nd ∈ peers, s'.VotingPeer nd ∧ s'.commitIdx ≤ nd.matchIdx) ∧
      s'.numVotingNodes < 2 * (1 + peers.length) ∧
      ∃ least ∈ peers, (∀ nd ∈ peers, least.matchIdx ≤ nd.matchIdx) ∧
        ∃ ety, s'.entryFromIdx least.matchIdx = some ety ∧ ety.term = s'.currentTerm) := by
  have obeys := raftRecvAppendentriesResponse_obeys plain ran
  obtain ⟨up, inside, majority⟩ := obeys.rule.resolve_left moved
  refine ⟨⟨up, inside⟩, ?_, fun others => ?_⟩
  · have fewer : s'.nodes.countP (s'.countsFor s'.commitIdx) ≤
        s'.nodes.countP fun nd => s'.VotingPeer nd ∧ s'.commitIdx ≤ nd.matchIdx := by
      refine List.countP_mono_left fun nd _ counts => ?_
      obtain ⟨peer, matched, -⟩ := countsFor_iff.mp counts
      exact decide_eq_true ⟨peer, matched⟩
    omega
  · have some_ := obeys.voters ▸ numVotingNodes_pos voting
    rw [List.countP_eq_length_filter] at majority
    have nonempty : s'.nodes.filter (s'.countsFor s'.commitIdx) ≠ [] := by
      intro none_
      rw [none_, List.length_nil] at majority
      omega
    obtain ⟨least, member, smallest⟩ := Set.exists_min_image
      { nd | nd ∈ s'.nodes.filter (s'.countsFor s'.commitIdx) } Node.matchIdx
      (List.finite_toSet _) (List.exists_mem_of_ne_nil _ nonempty)
    have counts : ∀ nd ∈ s'.nodes.filter (s'.countsFor s'.commitIdx),
        s'.countsFor s'.commitIdx nd = true := fun nd kept => (List.mem_filter.mp kept).2
    refine ⟨_, List.filter_sublist, fun nd kept => ?_, by omega, least, member, smallest, ?_⟩
    · obtain ⟨peer, matched, -⟩ := countsFor_iff.mp (counts nd kept)
      exact ⟨peer, matched⟩
    · exact (countsFor_iff.mp (counts least member)).2.2.2

/-- A call that returns, read off its result. -/
theorem exists_ok {ε β : Type} {r : Except ε β} {P : β → Prop} [DecidablePred P]
    (holds : (r.toOption.any fun b => decide (P b)) = true) : ∃ b, r = .ok b ∧ P b := by
  cases r with
  | error e => cases holds
  | ok b => exact ⟨b, rfl, of_decide_eq_true holds⟩

/-- The peer of two acknowledges entry 2. -/
theorem commit_rule_pair : ∃ s' : Server (Fin 2) Nat,
    s'.commitIdx = 2 ∧ s'.numVotingNodes = 2 ∧
    ((matchedLeader.commitIdx < s'.commitIdx ∧ s'.commitIdx ≤ s'.currentIdx) ∧
    s'.numVotingNodes <
      2 * (1 + s'.nodes.countP fun nd => s'.VotingPeer nd ∧ s'.commitIdx ≤ nd.matchIdx) ∧
    (s'.numVotingNodes ≠ 1 → ∃ peers : List (Node (Fin 2)), peers.Sublist s'.nodes ∧
      (∀ nd ∈ peers, s'.VotingPeer nd ∧ s'.commitIdx ≤ nd.matchIdx) ∧
      s'.numVotingNodes < 2 * (1 + peers.length) ∧
      ∃ least ∈ peers, (∀ nd ∈ peers, least.matchIdx ≤ nd.matchIdx) ∧
        ∃ ety, s'.entryFromIdx least.matchIdx = some ety ∧ ety.term = s'.currentTerm)) := by
  have voting : matchedLeader.selfVoting = some true := by decide +kernel
  have plain : ¬ matchedLeader.Due 1 ⟨1, true, 2, 2⟩ := by
    rintro ⟨-, -, nd, found, silent, -⟩
    have votes : matchedLeader.getNode 1 = some ((nodeNew 1).setNextIdx 3 |>.setMatchIdx 1) := by
      decide +kernel
    rw [votes] at found
    cases found
    cases silent
  obtain ⟨s', ran, commit, voters⟩ := exists_ok
    (show ((matchedLeader.raftRecvAppendentriesResponse (quietEnv 0) 1 ⟨1, true, 2, 2⟩).toOption.any
      fun s' => decide (s'.commitIdx = 2 ∧ s'.numVotingNodes = 2)) = true by decide +kernel)
  refine ⟨s', commit, voters, commit_rule voting plain ran ?_⟩
  rw [commit]
  decide +kernel

end Cyclone.Raft
