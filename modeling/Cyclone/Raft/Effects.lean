/-
# Raft.Effects — sends and elections

The loops over the peers, said once.  A send changes only its peer's cursor and
clock and leaves packets cut from the log (`Sent`); standing for election and taking
the lead are sends after a change of role (`raftBecomeCandidate_spec`, `TookLead`).
Seen from the log all of them are `Quiet`: they move no index and change no entry
and no membership.
-/
import Cyclone.Raft.Machine

namespace Cyclone.Raft

set_option autoImplicit false

variable {ι α : Type}

/-! ## Peers -/

namespace Node

/-- A peer less its cursor and clock: what a send leaves alone. -/
def bare (nd : Node ι) : Node ι :=
  { nd with nextIdx := 1, next_pos := first_pos, timeoutElapsed := 0 }

/-- A peer less everything a leader keeps about its log. -/
def ident (nd : Node ι) : Node ι := { nd.bare with matchIdx := 0 }

/-- A peer's place in the configuration. -/
def member (nd : Node ι) : ι × Bool := (nd.id, nd.voting)

@[simp] theorem bare_setNextIdx (nd : Node ι) (k : Int) : (nd.setNextIdx k).bare = nd.bare := rfl
@[simp] theorem bare_setElapsed (nd : Node ι) (k : Int) : (nd.setElapsed k).bare = nd.bare := rfl

@[simp] theorem bare_id (nd : Node ι) : nd.bare.id = nd.id := rfl
@[simp] theorem bare_voting (nd : Node ι) : nd.bare.voting = nd.voting := rfl
@[simp] theorem bare_member (nd : Node ι) : nd.bare.member = nd.member := rfl
@[simp] theorem bare_matchIdx (nd : Node ι) : nd.bare.matchIdx = nd.matchIdx := rfl
@[simp] theorem bare_votedForMe (nd : Node ι) : nd.bare.votedForMe = nd.votedForMe := rfl

theorem of_bare {nd nd' : Node ι} (same : nd.bare = nd'.bare) :
    nd.id = nd'.id ∧ nd.voting = nd'.voting ∧ nd.matchIdx = nd'.matchIdx ∧
      nd.votedForMe = nd'.votedForMe :=
  ⟨by simpa using congrArg Node.id same, by simpa using congrArg Node.voting same,
    by simpa using congrArg Node.matchIdx same, by simpa using congrArg Node.votedForMe same⟩

end Node

section Peers

variable [DecidableEq ι] {β : Type} {s s' : Server ι α}

variable {f : Node ι → Node ι} {g : Node ι → β}

/-- A property of peers that writing one of them does not change. -/
theorem map_updNode (same : ∀ nd, g (f nd) = g nd) (id : ι) :
    (s.updNode id f).nodes.map g = s.nodes.map g := by
  simp only [Server.updNode, List.map_map]
  apply List.map_congr_left
  intro nd _
  simp only [Function.comp_apply]
  split
  · exact same nd
  · rfl

variable {id : ι} {nd : Node ι}

theorem mem_of_getNode (found : s.getNode id = some nd) : nd ∈ s.nodes ∧ nd.id = id := by
  refine ⟨List.mem_of_find?_eq_some found, ?_⟩
  simpa using List.find?_some found

/-- A write through a pointer is read back through it. -/
theorem getNode_updNode (same : ∀ nd, (f nd).id = nd.id) (found : s.getNode id = some nd) :
    (s.updNode id f).getNode id = some (f nd) := by
  have here := (mem_of_getNode found).2
  unfold Server.getNode at found ⊢
  simp only [Server.updNode, List.find?_map]
  have ids : ((fun nd : Node ι => decide (nd.id = id)) ∘ fun nd => if nd.id = id then f nd else nd) =
      fun nd => decide (nd.id = id) := by
    funext nd
    simp only [Function.comp_apply]
    split
    · rw [same]
    · rfl
  rw [ids, found, Option.map_some, if_pos here]

omit [DecidableEq ι] in
/-- What is true of each peer's image under `g` transfers along equal images. -/
theorem exists_peer (same : s'.nodes.map g = s.nodes.map g) (member : nd ∈ s'.nodes) :
    ∃ nd₀ ∈ s.nodes, g nd₀ = g nd := by
  have image : g nd ∈ s.nodes.map g := same ▸ List.mem_map_of_mem member
  simpa using image

end Peers

/-! ## Callbacks that leave the log alone -/

/-- Sends and persists. -/
def Callback.outward : Callback ι α → Bool
  | .sendRequestvote _ _ => true
  | .sendAppendentries _ _ => true
  | .persistVote _ => true
  | .persistTerm _ => true
  | _ => false

/-- `s'` differs from `s` in no index, no entry and no membership, and only sent or
persisted in between. -/
structure Quiet (s s' : Server ι α) : Prop where
  log : s'.log = s.log
  commitIdx : s'.commitIdx = s.commitIdx
  lastAppliedIdx : s'.lastAppliedIdx = s.lastAppliedIdx
  logBase : s'.logBase = s.logBase
  lastCompactedIdx : s'.lastCompactedIdx = s.lastCompactedIdx
  logTarget : s'.logTarget = s.logTarget
  votingCfgChangeLogIdx : s'.votingCfgChangeLogIdx = s.votingCfgChangeLogIdx
  node : s'.node = s.node
  me : s'.me = s.me
  members : s'.nodes.map Node.member = s.nodes.map Node.member
  calls : ∃ cs, s'.calls = s.calls ++ cs ∧ ∀ c ∈ cs, c.outward

namespace Quiet

variable {s s' s'' : Server ι α}

theorem refl (s : Server ι α) : Quiet s s :=
  ⟨rfl, rfl, rfl, rfl, rfl, rfl, rfl, rfl, rfl, rfl, [], by simp, by simp⟩

theorem trans (first : Quiet s s') (second : Quiet s' s'') : Quiet s s'' := by
  obtain ⟨cs, calls, outward⟩ := first.calls
  obtain ⟨cs', calls', outward'⟩ := second.calls
  refine ⟨second.log.trans first.log, second.commitIdx.trans first.commitIdx,
    second.lastAppliedIdx.trans first.lastAppliedIdx, second.logBase.trans first.logBase,
    second.lastCompactedIdx.trans first.lastCompactedIdx, second.logTarget.trans first.logTarget,
    second.votingCfgChangeLogIdx.trans first.votingCfgChangeLogIdx, second.node.trans first.node,
    second.me.trans first.me, second.members.trans first.members, cs ++ cs', ?_, ?_⟩
  · rw [calls', calls, List.append_assoc]
  · intro c member
    rcases List.mem_append.mp member with old | new
    · exact outward c old
    · exact outward' c new

end Quiet

theorem setCurrentTerm_of_lt {s : Server ι α} {term : Int} (later : s.currentTerm < term) :
    s.setCurrentTerm term =
      { s with currentTerm := term, votedFor := none, calls := s.calls ++ [.persistTerm term] } := by
  rw [Server.setCurrentTerm, if_pos later]
  rfl

theorem quiet_setCurrentTerm (s : Server ι α) (term : Int) : Quiet s (s.setCurrentTerm term) := by
  unfold Server.setCurrentTerm
  split
  · exact ⟨rfl, rfl, rfl, rfl, rfl, rfl, rfl, rfl, rfl, rfl, [.persistTerm term], rfl, by
      simp [Callback.outward]⟩
  · exact Quiet.refl s

theorem quiet_becomeFollower (s : Server ι α) : Quiet s s.becomeFollower :=
  ⟨rfl, rfl, rfl, rfl, rfl, rfl, rfl, rfl, rfl, rfl, [], by simp [Server.becomeFollower,
    Server.setState], by simp⟩

/-! ## Loops over the peers -/

section Loops

variable [DecidableEq ι]

variable {body : Server ι α → Node ι → Server ι α} {s : Server ι α}

/-- The rule for a loop over the peers: `I done s` when the peers `done` have been visited. -/
theorem forNodes_induct {I : List ι → Server ι α → Prop}
    (next : ∀ done id s nd, I done s → s.getNode id = some nd → I (done ++ [id]) (body s nd))
    (skip : ∀ done id s, I done s → s.getNode id = none → I (done ++ [id]) s) (ids done : List ι)
    (start : I done s) : I (done ++ ids) (Server.forNodes ids body s) := by
  induction ids generalizing done s with
  | nil => simpa [Server.forNodes] using start
  | cons id ids ih =>
    rw [List.append_cons, Server.forNodes, List.foldl_cons]
    cases found : s.getNode id with
    | some nd => exact ih _ (next done id s nd start found)
    | none => exact ih _ (skip done id s start found)

/-- The rule for a loop whose body keeps `I` whatever was visited before. -/
theorem forNodes_keeps {I : Server ι α → Prop} (next : ∀ s nd, I s → nd ∈ s.nodes → I (body s nd))
    (ids : List ι) (start : I s) : I (Server.forNodes ids body s) :=
  forNodes_induct (I := fun _ s => I s)
    (fun _ _ s nd kept found => next s nd kept (mem_of_getNode found).1)
    (fun _ _ _ kept _ => kept) ids [] start

end Loops

/-! ## Sends -/

/-- A packet the server sends when a peer's cursor is at `nextIdx`. -/
def Server.Sends (s : Server ι α) (m : MsgAppendentries ι α) : Prop :=
  ∃ nextIdx, 1 ≤ nextIdx ∧ m ∈ sendAppendentriesOpt (s.mkAppendentries nextIdx)

/-- `s'` is `s` after some sends to peers in `who`. -/
structure Sent (who : ι → Prop) (s s' : Server ι α) : Prop where
  core : s' =
    { s with nodes := s'.nodes, timeoutElapsed := s'.timeoutElapsed, calls := s'.calls }
  bare : s'.nodes.map Node.bare = s.nodes.map Node.bare
  sends : ∃ cs, s'.calls = s.calls ++ cs ∧
    ∀ c ∈ cs, ∃ id m, c = .sendAppendentries id m ∧ who id ∧ s.Sends m

namespace Sent

variable {who : ι → Prop} {s s' s'' : Server ι α}

theorem refl (who : ι → Prop) (s : Server ι α) : Sent who s s :=
  ⟨rfl, rfl, [], by simp, by simp⟩

variable (sent : Sent who s s')
include sent

theorem currentTerm : s'.currentTerm = s.currentTerm := by
  rw [sent.core]

theorem votedFor : s'.votedFor = s.votedFor := by
  rw [sent.core]

theorem log : s'.log = s.log := by
  rw [sent.core]

theorem commitIdx : s'.commitIdx = s.commitIdx := by
  rw [sent.core]

theorem state : s'.state = s.state := by
  rw [sent.core]

theorem node : s'.node = s.node := by
  rw [sent.core]

/-- What a server sends depends on nothing a send changes. -/
theorem sends_iff (m : MsgAppendentries ι α) : s'.Sends m ↔ s.Sends m := by
  have same : ∀ k, s'.mkAppendentries k = s.mkAppendentries k := by
    intro k
    rw [sent.core]
    rfl
  simp only [Server.Sends, same]

omit sent in
theorem trans (first : Sent who s s') (second : Sent who s' s'') : Sent who s s'' := by
  obtain ⟨cs, calls, each⟩ := first.sends
  obtain ⟨cs', calls', each'⟩ := second.sends
  refine ⟨?_, second.bare.trans first.bare, cs ++ cs', ?_, ?_⟩
  · have outer := second.core
    rw [first.core] at outer
    exact outer
  · rw [calls', calls, List.append_assoc]
  · intro c member
    rcases List.mem_append.mp member with old | new
    · exact each c old
    · obtain ⟨id, m, eq, target, sends⟩ := each' c new
      exact ⟨id, m, eq, target, (first.sends_iff m).mp sends⟩

theorem members : s'.nodes.map Node.member = s.nodes.map Node.member := by
  have same := congrArg (List.map Node.member) sent.bare
  simpa [Function.comp_def] using same

theorem quiet : Quiet s s' := by
  obtain ⟨cs, calls, each⟩ := sent.sends
  refine ⟨sent.log, sent.commitIdx, by rw [sent.core], by rw [sent.core], by rw [sent.core],
    by rw [sent.core], by rw [sent.core], sent.node, by rw [sent.core], sent.members, cs, calls,
    fun c member => ?_⟩
  obtain ⟨id, m, rfl, -, -⟩ := each c member
  rfl

end Sent

section Sends

variable [DecidableEq ι] (env : Env α)

omit [DecidableEq ι] in
theorem bare_noteSent (multiInflight : Bool) (sent : Nat) (nd : Node ι) :
    (Server.noteSent multiInflight sent nd).bare = nd.bare := by
  unfold Server.noteSent
  cases multiInflight with
  | true =>
    simp only [if_true]
    split <;> rfl
  | false => rfl

/-- Writing a peer's cursor or clock is no send at all. -/
theorem sent_updNode {f : Node ι → Node ι} (same : ∀ nd, (f nd).bare = nd.bare) (who : ι → Prop)
    (s : Server ι α) (id : ι) : Sent who s (s.updNode id f) :=
  ⟨rfl, map_updNode same id, [], by simp [Server.updNode], by simp⟩

theorem sent_raftSendAppendentries (who : ι → Prop) (s : Server ι α) (id : ι) (target : who id) :
    Sent who s (s.raftSendAppendentries env id) := by
  unfold Server.raftSendAppendentries
  cases found : s.getNode id with
  | none => exact Sent.refl who s
  | some nd =>
    refine ⟨rfl, ?_, _, rfl, ?_⟩
    · exact map_updNode (s := { s with calls := _ }) (bare_noteSent _ _) id
    · intro c member
      obtain ⟨m, packet, rfl⟩ := List.mem_map.mp member
      exact ⟨id, m, rfl, target, nd.nextIdx, nd.next_pos, packet⟩

theorem sent_sendRound (s : Server ι α) :
    Sent (fun id => s.node ≠ some id) s (s.sendRound env) := by
  unfold Server.sendRound
  apply forNodes_keeps (I := fun s' => Sent (fun id => s.node ≠ some id) s s')
  · intro s' nd sent _
    split
    · exact sent
    · rename_i other
      refine sent.trans (sent_raftSendAppendentries env _ s' nd.id ?_)
      intro self
      exact other (Or.inl (sent.node.trans self))
  · exact Sent.refl _ s

theorem sent_leaderTick (s : Server ι α) (msec : Int) :
    Sent (fun id => s.node ≠ some id) s (s.leaderTick env msec) := by
  unfold Server.leaderTick
  apply forNodes_keeps (I := fun s' => Sent (fun id => s.node ≠ some id) s s')
  · intro s' nd sent _
    split
    · exact sent
    · rename_i other
      have target : s.node ≠ some nd.id := fun self => other (sent.node.trans self)
      have ticked := sent.trans
        (sent_updNode (f := (·.setElapsed (nd.timeoutElapsed + msec))) (fun _ => rfl) _ s' nd.id)
      simp only
      split
      · exact ticked.trans (sent_raftSendAppendentries env _ _ nd.id target)
      · split
        · exact ticked.trans (sent_raftSendAppendentries env _ _ nd.id target)
        · exact ticked
  · exact ⟨rfl, rfl, [], by simp, by simp⟩

end Sends

/-! ## Elections -/

section Elections

variable [DecidableEq ι] (env : Env α)

/-- The request for votes of a candidate of term `term`. -/
def Server.request (s : Server ι α) (term : Int) : MsgRequestvote ι where
  term := term
  candidateId := s.node
  lastLogIdx := s.currentIdx
  lastLogTerm := s.lastLogTerm

/-- Standing: a new term, the own vote, no vote of a peer, and a request to each voter. -/
theorem raftBecomeCandidate_spec (s : Server ι α) :
    ∃ cs, s.raftBecomeCandidate env =
        { s with
          currentTerm := s.currentTerm + 1
          votedFor := s.node
          nodes := s.nodes.map fun nd => nd.voteForMe false
          currentLeader := none
          state := .candidate
          timeoutElapsed := env.rand % s.electionTimeout
          calls := s.calls ++
            ([.persistTerm (s.currentTerm + 1), .persistVote s.node] ++ cs) } ∧
      ∀ c ∈ cs, ∃ id, s.node ≠ some id ∧
        c = .sendRequestvote id (s.request (s.currentTerm + 1)) := by
  obtain ⟨s₁, start⟩ : ∃ s₁ : Server ι α, s₁ =
      { s with
        currentTerm := s.currentTerm + 1
        votedFor := s.node
        nodes := s.nodes.map fun nd => nd.voteForMe false
        currentLeader := none
        state := .candidate
        timeoutElapsed := env.rand % s.electionTimeout
        calls := s.calls ++ [.persistTerm (s.currentTerm + 1), .persistVote s.node] } := ⟨_, rfl⟩
  have loop : s.raftBecomeCandidate env =
      Server.forNodes (s₁.nodes.map (·.id))
        (fun s nd =>
          if s.node ≠ some nd.id ∧ nd.voting = true then s.raftSendRequestvote nd.id else s) s₁ := by
    rw [start, Server.raftBecomeCandidate, setCurrentTerm_of_lt (by omega)]
    simp only [Server.voteForNodeid, Server.call, Server.setState, List.append_assoc]
    rfl
  have kept : ∃ cs, Server.forNodes (s₁.nodes.map (·.id))
        (fun s nd =>
          if s.node ≠ some nd.id ∧ nd.voting = true then s.raftSendRequestvote nd.id else s) s₁ =
        { s₁ with calls := s₁.calls ++ cs } ∧
      ∀ c ∈ cs, ∃ id, s.node ≠ some id ∧
        c = .sendRequestvote id (s.request (s.currentTerm + 1)) := by
    apply forNodes_keeps (I := fun s' => ∃ cs, s' = { s₁ with calls := s₁.calls ++ cs } ∧
      ∀ c ∈ cs, ∃ id, s.node ≠ some id ∧
        c = .sendRequestvote id (s.request (s.currentTerm + 1)))
    · rintro s' nd ⟨cs, rfl, each⟩ -
      split
      · rename_i other
        refine ⟨cs ++ [.sendRequestvote nd.id (s.request (s.currentTerm + 1))], ?_, ?_⟩
        · rw [start]
          simp only [Server.raftSendRequestvote, Server.call, List.append_assoc]
          rfl
        · intro c member
          rcases List.mem_append.mp member with old | new
          · exact each c old
          · rw [start] at other
            exact ⟨nd.id, other.1, List.mem_singleton.mp new⟩
      · exact ⟨cs, rfl, each⟩
    · exact ⟨[], by simp, by simp⟩
  obtain ⟨cs, after, each⟩ := kept
  refine ⟨cs, ?_, each⟩
  rw [loop, after, start]
  simp

/-- `s'` is `s` taking the lead, the peers `seen` told so far: their match is forgotten, and what
was sent was cut from the log of `s`. -/
structure TookLead (seen : List ι) (s s' : Server ι α) : Prop where
  core : s' =
    { s with
      state := .leader
      currentLeader := s.node
      nodes := s'.nodes
      timeoutElapsed := s'.timeoutElapsed
      calls := s'.calls }
  ident : s'.nodes.map Node.ident = s.nodes.map Node.ident
  reset : ∀ nd ∈ s'.nodes, nd.id ∈ seen → s.node ≠ some nd.id → nd.voting = true → nd.matchIdx = 0
  sends : ∃ cs, s'.calls = s.calls ++ cs ∧
    ∀ c ∈ cs, ∃ id m, c = .sendAppendentries id m ∧ s.node ≠ some id ∧ s.Sends m

variable {seen : List ι} {s : Server ι α}

omit [DecidableEq ι] in
/-- A send after taking the lead is one more send. -/
theorem TookLead.sent {s' s'' : Server ι α} (lead : TookLead seen s s')
    (sent : Sent (fun id => s.node ≠ some id) s' s'') : TookLead seen s s'' := by
  obtain ⟨cs, calls, each⟩ := lead.sends
  obtain ⟨cs', calls', each'⟩ := sent.sends
  have sends : ∀ m, s'.Sends m ↔ s.Sends m := by
    intro m
    have same : ∀ k, s'.mkAppendentries k = s.mkAppendentries k := by
      intro k
      rw [lead.core]
      rfl
    simp only [Server.Sends, same]
  refine ⟨?_, ?_, ?_, cs ++ cs', ?_, ?_⟩
  · have outer := sent.core
    rw [lead.core] at outer
    exact outer
  · have same := congrArg (List.map Node.ident) sent.bare
    simp only [List.map_map] at same
    exact Eq.trans same lead.ident
  · intro nd member visited other voting
    obtain ⟨nd₀, old, same⟩ := exists_peer sent.bare member
    obtain ⟨id, vote, idx, -⟩ := Node.of_bare same
    rw [← idx]
    exact lead.reset nd₀ old (id ▸ visited) (id ▸ other) (vote.trans voting)
  · rw [calls', calls, List.append_assoc]
  · intro c member
    rcases List.mem_append.mp member with old | new
    · exact each c old
    · obtain ⟨id, m, eq, other, sent⟩ := each' c new
      exact ⟨id, m, eq, other, (sends m).mp sent⟩

/-- A visit of the loop of `raft_become_leader`. -/
theorem TookLead.visit {s' : Server ι α} (lead : TookLead seen s s') (id : ι) (nextIdx : Int) :
    TookLead (seen ++ [id]) s
      (s'.updNode id fun nd => (nd.setNextIdx nextIdx).setMatchIdx 0) := by
  refine ⟨?_, ?_, ?_, lead.sends⟩
  · have same := lead.core
    exact congrArg (fun t : Server ι α => t.updNode id fun nd =>
      (nd.setNextIdx nextIdx).setMatchIdx 0) same
  · have same : ∀ nd : Node ι, ((nd.setNextIdx nextIdx).setMatchIdx 0).ident = nd.ident :=
      fun _ => rfl
    exact (map_updNode same id).trans lead.ident
  · intro nd member visited other voting
    simp only [Server.updNode, List.mem_map] at member
    obtain ⟨nd₀, old, rfl⟩ := member
    by_cases here : nd₀.id = id
    · rw [if_pos here]
      rfl
    · rw [if_neg here] at visited other voting ⊢
      rcases List.mem_append.mp visited with before | now
      · exact lead.reset nd₀ old before other voting
      · exact absurd (List.mem_singleton.mp now) here

omit [DecidableEq ι] in
/-- A peer that is not reset does not count, or is the server itself. -/
theorem TookLead.skip {s' : Server ι α} (lead : TookLead seen s s') {id : ι}
    (none_ : ∀ nd ∈ s'.nodes, nd.id = id → s.node ≠ some nd.id → nd.voting = true →
      nd.matchIdx = 0) : TookLead (seen ++ [id]) s s' := by
  refine ⟨lead.core, lead.ident, fun nd member visited other voting => ?_, lead.sends⟩
  rcases List.mem_append.mp visited with before | now
  · exact lead.reset nd member before other voting
  · exact none_ nd member (List.mem_singleton.mp now) other voting

/-- No two peers have one id. -/
def Server.NodupNodes (s : Server ι α) : Prop := (s.nodes.map (·.id)).Nodup

theorem getNode_of_mem (nodup : s.NodupNodes) {nd : Node ι} (member : nd ∈ s.nodes) :
    s.getNode nd.id = some nd := by
  unfold Server.NodupNodes at nodup
  unfold Server.getNode
  generalize s.nodes = nodes at nodup member
  induction nodes with
  | nil => cases member
  | cons first rest ih =>
    rw [List.map_cons, List.nodup_cons] at nodup
    rw [List.find?_cons]
    rcases List.mem_cons.mp member with rfl | later
    · simp
    · have other : first.id ≠ nd.id := fun same =>
        nodup.1 (same ▸ List.mem_map_of_mem later)
      simp only [other, decide_false]
      exact ih nodup.2 later

theorem raftBecomeLeader_spec (nodup : s.NodupNodes) :
    TookLead (s.nodes.map (·.id)) s (s.raftBecomeLeader env) := by
  have start : TookLead [] s (s.setState .leader) :=
    ⟨rfl, rfl, by simp, [], by simp [Server.setState], by simp⟩
  have nodup' : ∀ {seen s'}, TookLead seen s s' → s'.NodupNodes := by
    intro seen s' lead
    have ids := congrArg (List.map Node.id) lead.ident
    simp only [List.map_map] at ids
    unfold Server.NodupNodes
    rw [show s'.nodes.map (·.id) = s.nodes.map (·.id) from ids]
    exact nodup
  refine forNodes_induct (I := fun seen s' => TookLead seen s s') ?_ ?_ _ [] start
  · intro seen id s' nd lead found
    obtain ⟨member, rfl⟩ := mem_of_getNode found
    have node : s'.node = s.node := by rw [lead.core]
    split
    · rename_i skipped
      refine lead.skip fun nd' member' same other voting => ?_
      have one := getNode_of_mem (nodup' lead) member'
      rw [same, found] at one
      cases one
      rcases skipped with self | silent
      · exact absurd (node.symm.trans self) other
      · rw [silent] at voting
        cases voting
    · rename_i counted
      have other : s.node ≠ some nd.id := fun self => counted (Or.inl (node.trans self))
      exact (lead.visit nd.id _).sent (sent_raftSendAppendentries env _ _ nd.id other)
  · intro seen id s' lead missing
    refine lead.skip fun nd member same _ _ => ?_
    rw [← same, getNode_of_mem (nodup' lead) member] at missing
    cases missing

theorem quiet_raftBecomeCandidate (s : Server ι α) : Quiet s (s.raftBecomeCandidate env) := by
  obtain ⟨cs, after, each⟩ := raftBecomeCandidate_spec env s
  rw [after]
  refine ⟨rfl, rfl, rfl, rfl, rfl, rfl, rfl, rfl, rfl, ?_, _, rfl, ?_⟩
  · simp only [List.map_map]
    rfl
  · intro c member
    rcases List.mem_append.mp member with persisted | sent
    · simp only [List.mem_cons, List.not_mem_nil, or_false] at persisted
      rcases persisted with rfl | rfl <;> rfl
    · obtain ⟨id, -, rfl⟩ := each c sent
      rfl

theorem quiet_raftBecomeLeader (s : Server ι α) : Quiet s (s.raftBecomeLeader env) := by
  unfold Server.raftBecomeLeader
  apply forNodes_keeps (I := fun s' => Quiet s s')
  · intro s' nd quiet _
    split
    · exact quiet
    · have reset : Quiet s' (s'.updNode nd.id fun nd =>
          (nd.setNextIdx (s'.currentIdx + 1)).setMatchIdx 0) := by
        have same : ∀ nd : Node ι, ((nd.setNextIdx (s'.currentIdx + 1)).setMatchIdx 0).member =
            nd.member := fun _ => rfl
        exact ⟨rfl, rfl, rfl, rfl, rfl, rfl, rfl, rfl, rfl, map_updNode same nd.id, [],
          by simp [Server.updNode], by simp⟩
      have sent := sent_raftSendAppendentries env (fun _ => True)
        (s'.updNode nd.id fun nd => (nd.setNextIdx (s'.currentIdx + 1)).setMatchIdx 0) nd.id trivial
      exact (quiet.trans reset).trans sent.quiet
  · exact ⟨rfl, rfl, rfl, rfl, rfl, rfl, rfl, rfl, rfl, rfl, [], by simp [Server.setState], by simp⟩

end Elections

/-! ## The clock -/

section Clock

variable [DecidableEq ι] (env : Env α)

/-- `t` ticks for `s`: the server as it is, or the only voter after it took the lead. -/
def Server.Ticks (s t : Server ι α) : Prop :=
  t = s ∨ s.state ≠ .leader ∧ s.numVotingNodes = 1 ∧ s.selfVoting = some true ∧
    t = s.raftBecomeLeader env

/-- The rule for `raft_periodic` up to the applying of committed entries. -/
theorem periodicTick_rule {P : Except (Fault ι α) (Server ι α) → Prop} {s s₀ : Server ι α}
    {msec : Int} (clock : s₀ = { s with timeoutElapsed := s.timeoutElapsed + msec })
    (lost : ∀ t, s₀.Ticks env t → t.selfVoting = none → P (.error ⟨.undefined, t⟩))
    (leads : ∀ t, s₀.Ticks env t → t.state = .leader → P (.ok (t.leaderTick env msec)))
    (stands : ∀ t, s₀.Ticks env t → t.state ≠ .leader → t.selfVoting = some true →
      1 < t.nodes.length → P (.ok (t.raftBecomeCandidate env)))
    (waits : ∀ t, s₀.Ticks env t → t.state ≠ .leader → P (.ok t)) :
    P (s.periodicTick env msec) := by
  unfold Server.periodicTick
  rw [← clock]
  simp only
  split
  · rename_i f failed
    split at failed
    · split at failed
      · rename_i unknown
        cases failed
        exact lost s₀ (Or.inl rfl) unknown
      · cases failed
    · cases failed
  · rename_i t passed
    have ticks : s₀.Ticks env t := by
      split at passed
      · rename_i one
        split at passed
        · cases passed
        · rename_i voting known
          cases passed
          split
          · rename_i lone
            exact Or.inr ⟨lone.2, one, lone.1 ▸ known, rfl⟩
          · exact Or.inl rfl
      · cases passed
        exact Or.inl rfl
    split
    · rename_i leader
      exact leads t ticks leader
    · rename_i below
      split
      · split
        · rename_i unknown
          exact lost t ticks unknown
        · rename_i voting known
          split
          · rename_i candidate
            exact stands t ticks below (candidate.1 ▸ known) candidate.2
          · exact waits t ticks below
      · exact waits t ticks below

end Clock

end Cyclone.Raft
