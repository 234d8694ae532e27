/-
# Raft.Progress — what a leader knows of its peers

A leader keeps two indices a peer: what the peer has matched, and what is sent next.  `Paced`
orders them, inside the log, and asks that a match was acknowledged in the leader's term.
Sends move the second index no further than the end of the log (`Crept`); answers and configuration
changes write both.

An election resets the voters only.  A node without a vote keeps what an earlier leadership left,
so the order holds along runs in which no server takes the lead over such a node with
progress left over (`Sound`).
-/
import Cyclone.Raft.Answers
import Cyclone.Raft.Membership

namespace Cyclone.Raft

open Cyclone.Theory Relation

set_option autoImplicit false

variable {ι α : Type} [DecidableEq ι]

set_option linter.unusedSectionVars false

/-! ## Seats -/

/-- The server's own node is the one with its id, and no id is twice. -/
structure Seated (me : ι) (s : Server ι α) : Prop where
  chain : IndexChain s
  me_eq : s.me = me
  own : ∀ id, s.node = some id → id = me
  distinct : s.DistinctNodes

section Seats

variable {me : ι} {s s' : Server ι α} {env : Env α} {input : Input ι α}

theorem Light.node (act : Light env input s s') : s'.node = s.node ∧ s'.me = s.me := by
  cases act with
  | sent sent => exact ⟨sent.quiet.node, sent.quiet.me⟩
  | hint | giveUp | flag | matched | sufficient | checkpoint | vote => exact ⟨rfl, rfl⟩
  | raise later =>
    rw [setCurrentTerm_of_lt later]
    exact ⟨rfl, rfl⟩
  | stand => exact ⟨(quiet_raftBecomeCandidate env s).node, (quiet_raftBecomeCandidate env s).me⟩
  | win | alone => exact ⟨(quiet_raftBecomeLeader env s).node, (quiet_raftBecomeLeader env s).me⟩
  | advance advanced =>
    rw [(advanceCommit_commits advanced).core]
    exact ⟨rfl, rfl⟩
  | follow _ followed =>
    rw [(followCommit_commits followed).core]
    exact ⟨rfl, rfl⟩
  | apply next =>
    rw [next.core]
    exact ⟨rfl, rfl⟩
  | compact =>
    rw [compactLog_core]
    exact ⟨rfl, rfl⟩

theorem Light.members (act : Light env input s s') :
    s'.nodes.map Node.member = s.nodes.map Node.member := by
  rcases act.kinds with calm | ⟨ety, next⟩ | ⟨-, rfl⟩
  · exact calm.members
  · rw [next.core]
  · rw [compactLog_core]

/-- Own node is the one added under own name. -/
theorem raftAddNode_own (own : ∀ id, s.node = some id → id = me) (p : ι) :
    ∀ id, (s.raftAddNode p (p = me)).node = some id → id = me := by
  intro id
  unfold Server.raftAddNode
  split
  · exact own id
  · simp only
    split
    · rename_i self
      rintro ⟨⟩
      simpa using self
    · exact own id

/-- A configuration change keeps own node and ids. -/
theorem handleCfgChange_seats (own : ∀ id, s.node = some id → id = s.me)
    (distinct : s.DistinctNodes) (type : LogType ι) :
    (∀ id, (s.handleCfgChange type).node = some id → id = s.me) ∧
      (s.handleCfgChange type).DistinctNodes ∧ (s.handleCfgChange type).me = s.me := by
  have me : (s.handleCfgChange type).me = s.me := by rw [handleCfgChange_core]
  have added := raftAddNode_own own
  cases type with
  | normal => exact ⟨own, distinct, me⟩
  | addNonvotingNode id =>
    exact ⟨added id, (raftAddNonVotingNode_membership distinct id _).1, me⟩
  | addNode id => exact ⟨added id, (raftAddNode_membership distinct id _).1, me⟩
  | removeNode id =>
    refine ⟨?_, ?_, me⟩
    · simp only [Server.handleCfgChange, Server.raftRemoveNode]
      split <;> exact own
    · unfold Server.DistinctNodes at distinct ⊢
      simp only [Server.handleCfgChange, Server.raftRemoveNode]
      split
      · exact distinct.sublist (List.eraseP_sublist.map Node.id)
      · exact distinct.sublist ((List.dropLast_sublist _).map Node.id)

theorem applyCfg_seats (own : ∀ id, s.node = some id → id = s.me) (distinct : s.DistinctNodes)
    (es : List (Entry ι α)) :
    (∀ id, (s.applyCfg es).node = some id → id = s.me) ∧ (s.applyCfg es).DistinctNodes := by
  induction es generalizing s with
  | nil => exact ⟨own, distinct⟩
  | cons e es ih =>
    obtain ⟨own', distinct', me⟩ := handleCfgChange_seats own distinct e.type
    have rest := ih (s := s.handleCfgChange e.type) (by rwa [me]) distinct'
    rw [me] at rest
    exact rest

theorem Seated.light (seated : Seated me s) (act : Light env input s s') : Seated me s' := by
  obtain ⟨node, self⟩ := act.node
  exact ⟨(act.advances seated.chain).1, self.trans seated.me_eq, fun id => node ▸ seated.own id,
    distinct_of_members act.members seated.distinct⟩

theorem Seated.appended {es : List (Entry ι α)} (seated : Seated me s)
    (appended : Appended s s' es) : Seated me s' := by
  obtain ⟨own, distinct⟩ := applyCfg_seats (fun id => seated.me_eq ▸ seated.own id)
    seated.distinct es
  have self : s'.me = s.me := by rw [appended.core, applyCfg_core]
  refine ⟨(appended.advances seated.chain).1, self.trans seated.me_eq, ?_, ?_⟩
  · rw [appended.core]
    exact fun id found => (own id found).trans seated.me_eq
  · rw [appended.core]
    exact distinct

theorem Seated.voting (seated : Seated me s) (idx : Int) :
    Seated me { s with votingCfgChangeLogIdx := idx } :=
  ⟨(advances_voting s idx seated.chain).1, seated.me_eq, seated.own, seated.distinct⟩

theorem Seated.write (seated : Seated me s) (act : Writes env input s s') : Seated me s' := by
  have chain := (act.advances seated.chain).1
  cases act with
  | submit _ submitted =>
    have written := (seated.voting _).appended submitted.appended
    have quiet := submitted.sent.quiet
    refine ⟨chain, ?_, ?_, ?_⟩
    · rw [submitted.ends]
      exact quiet.me.trans written.me_eq
    · rw [submitted.ends]
      exact fun id found => written.own id (quiet.node ▸ found)
    · rw [submitted.ends]
      exact distinct_of_members (by exact quiet.members) written.distinct
  | cut => exact ⟨chain, seated.me_eq, seated.own, seated.distinct⟩
  | @take _ ae _ _ _ _ i cut scan =>
    have short : Seated me (s.cutAt cut) := by
      refine ⟨(advances_cutAt scan seated.chain).1, ?_, ?_, ?_⟩ <;> cases cut
      · exact seated.me_eq
      · exact seated.me_eq
      · exact seated.own
      · exact seated.own
      · exact seated.distinct
      · exact seated.distinct
    obtain ⟨s₁, appended, accepted⟩ := acceptEntries_spec (s.cutAt cut) scan.short
    have written := short.appended appended
    rw [Server.taken, accepted] at chain ⊢
    exact ⟨chain, written.me_eq, written.own, written.distinct⟩

theorem Seated.course (seated : Seated me s) (course : Course env input s s') : Seated me s' :=
  course.keeps (I := Seated me) (fun _ _ seated act => seated.light act)
    (fun _ _ seated _ act => seated.write act) seated

theorem Seated.self (seated : Seated me s) (id : ι) (found : s.node = some id) : id = s.me :=
  (seated.own id found).trans seated.me_eq.symm

end Seats

/-! ## A peer's indices -/

/-- What a leader knows of a peer is in order: the match below the next index, the next index not past
the end of the log, and a match acknowledged in the leader's term. -/
structure Paced (acks : List (ι × Int × Int)) (s : Server ι α) (nd : Node ι) : Prop where
  nonneg : 0 ≤ nd.matchIdx
  below : nd.matchIdx < nd.nextIdx
  inside : nd.nextIdx ≤ s.currentIdx + 1
  acked : nd.matchIdx = 0 ∨ (nd.id, s.currentTerm, nd.matchIdx) ∈ acks

/-- A leader's peers are paced. -/
def PacesAll (acks : List (ι × Int × Int)) (s : Server ι α) : Prop :=
  s.state = .leader → ∀ nd ∈ s.nodes, s.node ≠ some nd.id → Paced acks s nd

/-- `s'` is `s` after sends: a peer's next index moves up, never past the end of the log. -/
structure Crept (s s' : Server ι α) : Prop where
  log : s'.log = s.log
  state : s'.state = s.state
  currentTerm : s'.currentTerm = s.currentTerm
  node : s'.node = s.node
  ids : s'.nodes.map Node.id = s.nodes.map Node.id
  peers : ∀ nd' ∈ s'.nodes, ∃ nd ∈ s.nodes, nd'.bare = nd.bare ∧ nd.nextIdx ≤ nd'.nextIdx ∧
    (nd'.nextIdx = nd.nextIdx ∨ nd'.nextIdx ≤ s.currentIdx + 1)

section Sends

variable {acks : List (ι × Int × Int)} {s s' s'' : Server ι α} {env : Env α}

theorem PacesAll.of_follower (below : s.state ≠ .leader) : PacesAll acks s := fun leads =>
  absurd leads below

/-- The same peers in the same place. -/
theorem PacesAll.of_same (paces : PacesAll acks s) (nodes : s'.nodes = s.nodes)
    (state : s'.state = s.state) (node : s'.node = s.node)
    (term : s'.currentTerm = s.currentTerm) (back : s'.log.back = s.log.back) : PacesAll acks s' := by
  intro leads nd member other
  have paced := paces (state ▸ leads) nd (nodes ▸ member) (node ▸ other)
  refine ⟨paced.nonneg, paced.below, ?_, term.symm ▸ paced.acked⟩
  have inside := paced.inside
  simp only [Server.currentIdx, logGetCurrentIdx, back] at inside ⊢
  exact inside

theorem PacesAll.mono (paces : PacesAll acks s) {acks' : List (ι × Int × Int)}
    (more : acks ⊆ acks') : PacesAll acks' s := by
  intro leads nd member other
  have paced := paces leads nd member other
  exact ⟨paced.nonneg, paced.below, paced.inside, paced.acked.imp_right fun seen => more seen⟩

/-- What `raft_send_appendentries` notes of a send moves the next index by at most what was sent. -/
theorem noteSent_next (inflight : Bool) (sent : Nat) (nd : Node ι) :
    nd.nextIdx ≤ (Server.noteSent inflight sent nd).nextIdx ∧
      (Server.noteSent inflight sent nd).nextIdx ≤ nd.nextIdx + sent := by
  have pos := nd.next_pos
  unfold Server.noteSent
  cases inflight with
  | false => exact ⟨le_refl _, by change nd.nextIdx ≤ _; omega⟩
  | true =>
    have moved : (nd.setNextIdx (nd.nextIdx + sent)).nextIdx = nd.nextIdx + sent := by
      simp only [Node.setNextIdx]
      rw [if_neg (by omega)]
    simp only [if_true]
    split
    · change nd.nextIdx ≤ (nd.setNextIdx _).nextIdx ∧ (nd.setNextIdx _).nextIdx ≤ _
      omega
    · omega

namespace Crept

theorem refl (s : Server ι α) : Crept s s :=
  ⟨rfl, rfl, rfl, rfl, rfl, fun nd member => ⟨nd, member, rfl, le_refl _, Or.inl rfl⟩⟩

theorem trans (first : Crept s s') (second : Crept s' s'') : Crept s s'' := by
  refine ⟨second.log.trans first.log, second.state.trans first.state,
    second.currentTerm.trans first.currentTerm, second.node.trans first.node,
    second.ids.trans first.ids, fun nd'' member => ?_⟩
  obtain ⟨nd', old', same', up', bound'⟩ := second.peers nd'' member
  obtain ⟨nd, old, same, up, bound⟩ := first.peers nd' old'
  have back : s'.currentIdx = s.currentIdx := by rw [Server.currentIdx, first.log]; rfl
  rw [back] at bound'
  refine ⟨nd, old, same'.trans same, up.trans up', ?_⟩
  rcases bound' with still | inside
  · rw [still]
    exact bound
  · exact Or.inr inside

theorem paces (crept : Crept s s') (paces : PacesAll acks s) : PacesAll acks s' := by
  intro leads nd' member other
  obtain ⟨nd, old, same, up, bound⟩ := crept.peers nd' member
  obtain ⟨id, -, matched, -⟩ := Node.of_bare same
  have back : s'.currentIdx = s.currentIdx := by rw [Server.currentIdx, crept.log]; rfl
  have paced := paces (crept.state ▸ leads) nd old (by rw [← crept.node, ← id]; exact other)
  have below := paced.below
  have inside := paced.inside
  refine ⟨by rw [matched]; exact paced.nonneg, by omega, by rw [back]; omega, ?_⟩
  rw [matched, id, crept.currentTerm]
  exact paced.acked

/-- Writing a peer's clock is no send. -/
theorem of_elapsed (s : Server ι α) (id : ι) (elapsed : Int) :
    Crept s (s.updNode id (·.setElapsed elapsed)) := by
  have ids : ∀ nd : Node ι, (nd.setElapsed elapsed).id = nd.id := fun _ => rfl
  refine ⟨rfl, rfl, rfl, rfl, map_updNode ids id, fun nd' member => ?_⟩
  obtain ⟨nd, old, rfl⟩ := List.mem_map.mp member
  refine ⟨nd, old, ?_⟩
  split
  · exact ⟨rfl, le_refl _, Or.inl rfl⟩
  · exact ⟨rfl, le_refl _, Or.inl rfl⟩

/-- A send moves the next index by what was taken of a range of the log. -/
theorem of_send (wf : s.log.Wf) (distinct : s.DistinctNodes) (id : ι) :
    Crept s (s.raftSendAppendentries env id) := by
  unfold Server.raftSendAppendentries
  cases found : s.getNode id with
  | none => exact .refl s
  | some target =>
    obtain ⟨sent, counted⟩ : ∃ sent : Nat, sent = if (s.mkAppendentries target.nextIdx).entries = []
        then 0 else min (env.tx s.calls.length)
          (sendAppendentriesOpt (s.mkAppendentries target.nextIdx)).length := ⟨_, rfl⟩
    have room : sent = 0 ∨ target.nextIdx + sent ≤ s.currentIdx + 1 := by
      rw [counted]
      split
      · exact Or.inl rfl
      · rename_i some_
        right
        have pos := target.next_pos
        have length := wf.length_eq
        obtain ⟨-, high, k, range⟩ := wf.getFromIdx_eq some_
        have packets : (sendAppendentriesOpt (s.mkAppendentries target.nextIdx)).length ≤
            s.log.entries.length - (target.nextIdx - 1).toNat := by
          unfold sendAppendentriesOpt
          rw [if_neg some_]
          simp only [Server.mkAppendentries, range, List.length_map, List.length_take,
            List.length_drop]
          omega
        simp only [Server.currentIdx, logGetCurrentIdx]
        omega
    simp only [← counted]
    have ids : ∀ nd : Node ι, (Server.noteSent s.multiInflight sent nd).id = nd.id := fun nd => by
      rw [← Node.bare_id, bare_noteSent, Node.bare_id]
    refine ⟨rfl, rfl, rfl, rfl, map_updNode ids id, fun nd' member => ?_⟩
    obtain ⟨nd, old, rfl⟩ := List.mem_map.mp member
    refine ⟨nd, old, ?_⟩
    by_cases here : nd.id = id
    · have one := getNode_of_mem distinct old
      rw [here, found] at one
      cases one
      rw [if_pos here]
      obtain ⟨up, bound⟩ := noteSent_next s.multiInflight sent target
      refine ⟨bare_noteSent _ _ _, up, ?_⟩
      rcases room with zero | inside
      · exact Or.inl (by omega)
      · exact Or.inr (by omega)
    · rw [if_neg here]
      exact ⟨rfl, le_refl _, Or.inl rfl⟩

theorem distinct (crept : Crept s s') (distinct : s.DistinctNodes) : s'.DistinctNodes := by
  unfold Server.DistinctNodes
  rw [crept.ids]
  exact distinct

/-- A loop over the peers whose body sends. -/
theorem of_loop {body : Server ι α → Node ι → Server ι α} (wf : s.log.Wf)
    (distinct : s.DistinctNodes)
    (next : ∀ t nd, t.log.Wf → t.DistinctNodes → Crept t (body t nd)) (ids : List ι) :
    Crept s (Server.forNodes ids body s) :=
  forNodes_keeps (I := fun t => Crept s t)
    (fun t nd crept _ => crept.trans (next t nd (crept.log.symm ▸ wf) (crept.distinct distinct)))
    ids (.refl s)

theorem of_sendRound (wf : s.log.Wf) (distinct : s.DistinctNodes) : Crept s (s.sendRound env) := by
  refine of_loop wf distinct (fun t nd wf distinct => ?_) _
  split
  · exact .refl t
  · exact of_send wf distinct nd.id

theorem of_leaderTick (wf : s.log.Wf) (distinct : s.DistinctNodes) (msec : Int) :
    Crept s (s.leaderTick env msec) := by
  have start : Crept s { s with timeoutElapsed := 0 } :=
    ⟨rfl, rfl, rfl, rfl, rfl, (Crept.refl s).peers⟩
  refine start.trans (of_loop (s := { s with timeoutElapsed := 0 }) wf distinct
    (fun t nd wf distinct => ?_) _)
  split
  · exact .refl t
  · have clock := of_elapsed t nd.id (nd.timeoutElapsed + msec)
    have sent : Crept t (Server.raftSendAppendentries env _ nd.id) :=
      clock.trans (of_send (clock.log.symm ▸ wf) (clock.distinct distinct) nd.id)
    simp only
    split
    · exact sent
    · split
      · exact sent
      · exact clock

end Crept

end Sends

/-! ## Elections -/

section Elections

variable {acks : List (ι × Int × Int)} {s s' : Server ι α} {env : Env α}

/-- A node without a vote has no progress left over. -/
def Server.Spare (s : Server ι α) : Prop :=
  ∀ nd ∈ s.nodes, s.node ≠ some nd.id → nd.voting = false →
    nd.matchIdx = 0 ∧ nd.nextIdx ≤ s.currentIdx + 1

instance (s : Server ι α) : Decidable s.Spare := by
  unfold Server.Spare
  infer_instance

/-- The peers reset so far, and the others as an election finds them. -/
structure Resets (seen : List ι) (s t : Server ι α) : Prop where
  log : t.log = s.log
  node : t.node = s.node
  ids : t.nodes.map Node.id = s.nodes.map Node.id
  peers : ∀ nd ∈ t.nodes, s.node ≠ some nd.id → (nd.voting = true → nd.id ∈ seen) →
    nd.matchIdx = 0 ∧ nd.nextIdx ≤ s.currentIdx + 1

variable {seen : List ι} {t : Server ι α}

theorem Resets.crept {t' : Server ι α} (resets : Resets seen s t) (crept : Crept t t') :
    Resets seen s t' := by
  refine ⟨crept.log.trans resets.log, crept.node.trans resets.node, crept.ids.trans resets.ids,
    fun nd' member other voters => ?_⟩
  obtain ⟨nd, old, same, -, bound⟩ := crept.peers nd' member
  obtain ⟨id, voting, matched, -⟩ := Node.of_bare same
  have back : t.currentIdx = s.currentIdx := by rw [Server.currentIdx, resets.log]; rfl
  rw [back] at bound
  obtain ⟨zero, inside⟩ := resets.peers nd old (id ▸ other) (by rw [← id, ← voting]; exact voters)
  exact ⟨matched.trans zero, by omega⟩

theorem Resets.reset (resets : Resets seen s t) (id : ι) (back : 0 ≤ s.currentIdx) :
    Resets (seen ++ [id]) s
      (t.updNode id fun nd => (nd.setNextIdx (t.currentIdx + 1)).setMatchIdx 0) := by
  have same : t.currentIdx = s.currentIdx := by rw [Server.currentIdx, resets.log]; rfl
  have ids : ∀ nd : Node ι, ((nd.setNextIdx (t.currentIdx + 1)).setMatchIdx 0).id = nd.id :=
    fun _ => rfl
  refine ⟨resets.log, resets.node, (map_updNode ids id).trans resets.ids,
    fun nd' member other voters => ?_⟩
  obtain ⟨nd, old, rfl⟩ := List.mem_map.mp member
  by_cases here : nd.id = id
  · rw [if_pos here]
    refine ⟨rfl, ?_⟩
    simp only [Node.setMatchIdx, Node.setNextIdx, same]
    rw [if_neg (by omega)]
  · rw [if_neg here] at other voters ⊢
    refine resets.peers nd old other fun voting => ?_
    rcases List.mem_append.mp (voters voting) with before | now
    · exact before
    · exact absurd (List.mem_singleton.mp now) here

theorem Resets.skip (resets : Resets seen s t) {id : ι}
    (spared : ∀ nd ∈ t.nodes, nd.id = id → s.node ≠ some nd.id → nd.voting = false) :
    Resets (seen ++ [id]) s t := by
  refine ⟨resets.log, resets.node, resets.ids, fun nd member other voters => ?_⟩
  refine resets.peers nd member other fun voting => ?_
  rcases List.mem_append.mp (voters voting) with before | now
  · exact before
  · rw [spared nd member (List.mem_singleton.mp now) other] at voting
    cases voting

/-- After an election every peer is at the end of the log, matched nowhere. -/
theorem pacesAll_raftBecomeLeader (chain : IndexChain s) (distinct : s.DistinctNodes)
    (spare : s.Spare) : PacesAll acks (s.raftBecomeLeader env) := by
  have back : 0 ≤ s.currentIdx := by
    have := chain.wf.front_nonneg
    have := chain.wf.front_le
    simp only [Server.currentIdx, logGetCurrentIdx]
    omega
  have start : Resets [] s (s.setState .leader) := by
    refine ⟨rfl, rfl, rfl, fun nd member other voters => spare nd member other ?_⟩
    cases voting : nd.voting with
    | false => rfl
    | true => exact absurd (voters voting) List.not_mem_nil
  have whole : Resets (s.nodes.map Node.id) s (s.raftBecomeLeader env) := by
    refine forNodes_induct (I := fun seen t => Resets seen s t) ?_ ?_ _ [] start
    · intro seen id t nd resets found
      obtain ⟨member, rfl⟩ := mem_of_getNode found
      have unique : t.DistinctNodes := by
        unfold Server.DistinctNodes
        rw [resets.ids]
        exact distinct
      split
      · rename_i skipped
        refine resets.skip fun nd' member' same other => ?_
        have one := getNode_of_mem unique member'
        rw [same, found] at one
        cases one
        rcases skipped with self | silent
        · exact absurd (resets.node.symm.trans self) other
        · exact silent
      · have reset := resets.reset nd.id back
        have written : ∀ nd' : Node ι,
            ((nd'.setNextIdx (t.currentIdx + 1)).setMatchIdx 0).id = nd'.id := fun _ => rfl
        exact reset.crept (.of_send (reset.log.symm ▸ chain.wf) (updNode_distinct written unique)
          nd.id)
    · intro seen id t resets missing
      refine resets.skip fun nd member same _ => ?_
      have unique : t.DistinctNodes := by
        unfold Server.DistinctNodes
        rw [resets.ids]
        exact distinct
      rw [← same, getNode_of_mem unique member] at missing
      cases missing
  intro _ nd member other
  have same : (s.raftBecomeLeader env).currentIdx = s.currentIdx := by
    rw [Server.currentIdx, whole.log]
    rfl
  have seen : nd.id ∈ s.nodes.map Node.id := whole.ids ▸ List.mem_map_of_mem member
  obtain ⟨zero, inside⟩ := whole.peers nd member (whole.node ▸ other) fun _ => seen
  have pos := nd.next_pos
  exact ⟨by omega, by omega, by rw [same]; exact inside, Or.inl zero⟩

end Elections

/-! ## Configuration changes -/

section Changes

variable {acks : List (ι × Int × Int)} {s s' : Server ι α}

/-- Where a peer's indices come from in a change of type `type`: they are those of a peer before, or
of a new node, or of one that was set back to the pending change. -/
def Server.Inherits (s : Server ι α) (joins : Prop) (nd : Node ι) : Prop :=
  (∃ nd₀ ∈ s.nodes, s.node ≠ some nd₀.id ∧ nd.id = nd₀.id ∧ nd.matchIdx = nd₀.matchIdx ∧
    nd.nextIdx = nd₀.nextIdx) ∨
  nd.matchIdx = 0 ∧ (nd.nextIdx = 1 ∨ joins ∧ nd.nextIdx = max 1 s.votingCfgChangeLogIdx)

variable {nd : Node ι}

theorem inherits_self (member : nd ∈ s.nodes) (other : s.node ≠ some nd.id) (joins : Prop) :
    s.Inherits joins nd :=
  Or.inl ⟨nd, member, other, rfl, rfl, rfl⟩

variable {id x : ι}

theorem raftAddNode_other (own : ∀ x, s.node = some x → x = s.me)
    (other : (s.raftAddNode id (id = s.me)).node ≠ some x) : s.node ≠ some x := by
  intro self
  refine other ?_
  unfold Server.raftAddNode
  split
  · exact self
  · simp only
    split
    · rename_i here
      rw [own x self]
      simpa using here
    · exact self

theorem raftAddNode_inherits (own : ∀ x, s.node = some x → x = s.me)
    (member : nd ∈ (s.raftAddNode id (id = s.me)).nodes)
    (other : (s.raftAddNode id (id = s.me)).node ≠ some nd.id) (joins : Prop) :
    s.Inherits joins nd := by
  have other' := raftAddNode_other own other
  unfold Server.raftAddNode at member
  split at member
  · obtain ⟨nd₀, old, rfl⟩ := List.mem_map.mp member
    have same : ∀ y : Node ι, y = (if nd₀.id = id then nd₀.setVoting true else nd₀) →
        y.id = nd₀.id ∧ y.matchIdx = nd₀.matchIdx ∧ y.nextIdx = nd₀.nextIdx := by
      rintro y rfl
      split <;> exact ⟨rfl, rfl, rfl⟩
    obtain ⟨ident, matched, next⟩ := same _ rfl
    exact Or.inl ⟨nd₀, old, ident ▸ other', ident, matched, next⟩
  · rcases List.mem_append.mp member with old | new
    · exact inherits_self old other' joins
    · obtain rfl := List.mem_singleton.mp new
      exact Or.inr ⟨rfl, Or.inl rfl⟩

variable {type : LogType ι}

theorem handleCfgChange_other (own : ∀ x, s.node = some x → x = s.me)
    (other : (s.handleCfgChange type).node ≠ some x) : s.node ≠ some x := by
  cases type with
  | normal => exact other
  | addNonvotingNode id => exact raftAddNode_other own other
  | addNode id => exact raftAddNode_other own other
  | removeNode id =>
    simp only [Server.handleCfgChange, Server.raftRemoveNode] at other
    split at other <;> exact other

theorem handleCfgChange_inherits (own : ∀ x, s.node = some x → x = s.me)
    (member : nd ∈ (s.handleCfgChange type).nodes)
    (other : (s.handleCfgChange type).node ≠ some nd.id) :
    s.Inherits (∃ x, type = .addNonvotingNode x) nd := by
  cases type with
  | normal => exact inherits_self member other _
  | addNode id => exact raftAddNode_inherits own member other _
  | removeNode id =>
    have kept : nd ∈ s.nodes := by
      simp only [Server.handleCfgChange, Server.raftRemoveNode] at member
      split at member
      · exact List.mem_of_mem_eraseP member
      · exact List.mem_of_mem_dropLast member
    exact inherits_self kept (handleCfgChange_other own other) _
  | addNonvotingNode id =>
    obtain ⟨nd₁, added, rfl⟩ := List.mem_map.mp member
    by_cases here : nd₁.id = id
    · rw [if_pos here]
      refine Or.inr ⟨rfl, Or.inr ⟨⟨id, rfl⟩, ?_⟩⟩
      simp only [Node.setMatchIdx, Node.setNextIdx]
      split <;> omega
    · rw [if_neg here] at other ⊢
      exact raftAddNode_inherits own added other _

variable {es : List (Entry ι α)}

theorem applyCfg_inherits (own : ∀ x, s.node = some x → x = s.me) (distinct : s.DistinctNodes)
    (member : nd ∈ (s.applyCfg es).nodes) (other : (s.applyCfg es).node ≠ some nd.id) :
    s.Inherits (∃ e ∈ es, ∃ x, e.type = .addNonvotingNode x) nd := by
  induction es generalizing s with
  | nil => exact inherits_self member other _
  | cons e es ih =>
    obtain ⟨own', distinct', me⟩ := handleCfgChange_seats own distinct e.type
    have pending : (s.handleCfgChange e.type).votingCfgChangeLogIdx = s.votingCfgChangeLogIdx := by
      rw [handleCfgChange_core]
    rcases ih (s := s.handleCfgChange e.type) (by rwa [me]) distinct' member other with
      ⟨nd₁, old, other₁, id, matched, next⟩ | ⟨zero, first | ⟨⟨x, inside, type⟩, set⟩⟩
    · rcases handleCfgChange_inherits own old other₁ with
        ⟨nd₀, old₀, other₀, id₀, matched₀, next₀⟩ | ⟨zero, first | ⟨joins, set⟩⟩
      · exact Or.inl ⟨nd₀, old₀, other₀, id.trans id₀, matched.trans matched₀, next.trans next₀⟩
      · exact Or.inr ⟨matched.trans zero, Or.inl (next.trans first)⟩
      · exact Or.inr ⟨matched.trans zero,
          Or.inr ⟨⟨e, List.mem_cons_self, joins⟩, next.trans set⟩⟩
    · exact Or.inr ⟨zero, Or.inl first⟩
    · exact Or.inr ⟨zero,
        Or.inr ⟨⟨x, List.mem_cons_of_mem e inside, type⟩, set.trans (by rw [pending])⟩⟩

/-- An append keeps the peers paced, as long as a node that joins is set back into the log. -/
theorem PacesAll.appended {me : ι} (paces : PacesAll acks s) (seated : Seated me s)
    (appended : Appended s s' es) (joins : (∃ e ∈ es, ∃ x, e.type = .addNonvotingNode x) →
      s.votingCfgChangeLogIdx ≤ s.currentIdx + es.length + 1) : PacesAll acks s' := by
  intro leads nd member other
  have core := appended.core
  have state : s'.state = s.state := by rw [core, applyCfg_core]
  have term : s'.currentTerm = s.currentTerm := by rw [core, applyCfg_core]
  have nodes : s'.nodes = (s.applyCfg es).nodes := by rw [core]
  have node : s'.node = (s.applyCfg es).node := by rw [core]
  have back : s'.currentIdx = s.currentIdx + es.length := appended.grown.back_eq
  have low := seated.chain.wf.front_nonneg
  have high := seated.chain.wf.front_le
  have bottom : 0 ≤ s.currentIdx := low.trans high
  rcases applyCfg_inherits seated.self seated.distinct (nodes ▸ member) (node ▸ other) with
    ⟨nd₀, old, other₀, id, matched, next⟩ | ⟨zero, first | ⟨joined, set⟩⟩
  · have paced := paces (state ▸ leads) nd₀ old other₀
    have inside := paced.inside
    refine ⟨matched ▸ paced.nonneg, by rw [matched, next]; exact paced.below, by omega, ?_⟩
    rw [matched, id, term]
    exact paced.acked
  · exact ⟨by omega, by omega, by omega, Or.inl zero⟩
  · have bound := joins joined
    exact ⟨by omega, by omega, by omega, Or.inl zero⟩

end Changes

/-! ## Calls -/

section Calls

variable {me : ι} {acks : List (ι × Int × Int)} {s s' : Server ι α} {env : Env α}

variable {idx : Int}

/-- The index of a voting change in a batch lies in the batch. -/
theorem detectVotingCfgChange_le {es : List (Entry ι α)} {detected found : Int}
    (ran : Server.detectVotingCfgChange es idx detected = some found) :
    (found = detected ∨ found < idx + es.length) ∧
      ((∃ e ∈ es, e.isVotingCfgChange = true) → found < idx + es.length ∧ detected = -1) := by
  induction es generalizing idx detected with
  | nil => exact ⟨Or.inl (by cases ran; rfl), by simp⟩
  | cons e es ih =>
    rw [Server.detectVotingCfgChange] at ran
    simp only [List.length_cons]
    split at ran
    · split at ran
      · cases ran
      · rename_i free
        obtain ⟨bound, -⟩ := ih ran
        push_cast
        exact ⟨by omega, fun _ => ⟨by omega, not_not.mp free⟩⟩
    · rename_i plain
      obtain ⟨bound, inside⟩ := ih ran
      push_cast
      refine ⟨by omega, ?_⟩
      rintro ⟨x, member, change⟩
      rcases List.mem_cons.mp member with rfl | later
      · exact absurd change plain
      · obtain ⟨low, free⟩ := inside ⟨x, later, change⟩
        exact ⟨by omega, free⟩

variable {es : List (MsgEntry ι α)}

section Entries

variable (paces : PacesAll acks s) (seated : Seated me s)
include paces seated

/-- A leader's append of a client's entries, where the pending change the offers see is in or before
the batch. -/
theorem PacesAll.offered {s₁ : Server ι α}
    (appended : Appended s s₁ (stampFrom s.cycloneIsLeader s.prevEntry s.log.back
      (es.map (Server.entryOf s.currentTerm))))
    (pending : (∃ e ∈ es.map (Server.entryOf s.currentTerm), e.isVotingCfgChange = true) →
      s.votingCfgChangeLogIdx ≤ s.currentIdx + es.length + 1) : PacesAll acks s₁ := by
  generalize stamps : stampFrom s.cycloneIsLeader s.prevEntry s.log.back
    (es.map (Server.entryOf s.currentTerm)) = stamped at appended
  have length : stamped.length = es.length := by rw [← stamps, stampFrom_length, List.length_map]
  have types : stamped.map (·.type) = (es.map (Server.entryOf s.currentTerm)).map (·.type) := by
    rw [← stamps]
    exact stampFrom_map (fun _ _ _ => rfl) _ _ _
  refine paces.appended seated appended fun ⟨e, member, x, type⟩ => ?_
  have typed : e.type ∈ (es.map (Server.entryOf s.currentTerm)).map (·.type) :=
    types ▸ List.mem_map_of_mem member
  obtain ⟨y, inside, same⟩ := List.mem_map.mp typed
  rw [length]
  exact pending ⟨y, inside, by rw [Entry.isVotingCfgChange, same, type]⟩

/-- The sends of an append, and the commit index of a lone node. -/
theorem PacesAll.sendRound (env : Env α) :
    PacesAll acks (if (s.sendRound env).nodes.length = 1
      then { s.sendRound env with commitIdx := (s.sendRound env).currentIdx }
      else s.sendRound env) := by
  have sent : PacesAll acks (s.sendRound env) :=
    (Crept.of_sendRound seated.chain.wf seated.distinct).paces paces
  split
  · exact sent.of_same rfl rfl rfl rfl rfl
  · exact sent

theorem pacesAll_raftRecvEntryBatch {answer : Except EntryError (List MsgEntryResponse)}
    (ran : s.raftRecvEntryBatch env es = .ok (s', answer)) : PacesAll acks s' := by
  unfold Server.raftRecvEntryBatch at ran
  split at ran
  · cases ran
    exact paces
  simp only at ran
  split at ran
  · cases ran
    exact paces
  rename_i detected detect
  split at ran
  · cases ran
  cases ran
  have early := seated.voting detected
  have appended := raftAppendEntryBatch_spec { s with votingCfgChangeLogIdx := detected }
    (es.map (Server.entryOf s.currentTerm))
  have kept : PacesAll acks { s with votingCfgChangeLogIdx := detected } :=
    paces.of_same rfl rfl rfl rfl rfl
  have written := kept.offered early appended fun change => by
    have inside := ((detectVotingCfgChange_le detect).2 change).1
    rw [List.length_map] at inside
    change detected ≤ s.currentIdx + es.length + 1
    omega
  exact written.sendRound (early.appended appended) env

theorem pacesAll_raftRecvEntry {e : MsgEntry ι α} {answer : Except EntryError MsgEntryResponse}
    (ran : s.raftRecvEntry env e = .ok (s', answer)) : PacesAll acks s' := by
  unfold Server.raftRecvEntry at ran
  simp only at ran
  split at ran
  · cases ran
    exact paces
  rename_i open_
  split at ran
  · cases ran
    exact paces
  split at ran
  · cases ran
  have appended := raftAppendEntry_spec s (Server.entryOf s.currentTerm e)
  have written : PacesAll acks (s.raftAppendEntry (Server.entryOf s.currentTerm e)) := by
    refine PacesAll.offered paces seated (show Appended s _ (stampFrom _ _ _
      ([e].map (Server.entryOf s.currentTerm))) from appended) fun ⟨x, member, change⟩ => ?_
    obtain rfl := List.mem_singleton.mp member
    have free : s.votingCfgChangeLogIdx = -1 := by
      by_contra pending
      exact open_ ⟨change, pending⟩
    have low := seated.chain.wf.front_nonneg
    have high := seated.chain.wf.front_le
    simp only [Server.currentIdx, logGetCurrentIdx, List.length_singleton]
    omega
  cases ran
  have sent := written.sendRound (seated.appended appended) env
  generalize (s.raftAppendEntry (Server.entryOf s.currentTerm e)).sendRound env = t at sent ⊢
  split
  · exact sent.of_same rfl rfl rfl rfl rfl
  · exact sent

end Entries

theorem pacesAll_applyCommitted {done : Bool} (paces : PacesAll acks s)
    (ran : s.applyCommitted env = .ok (s', done)) : PacesAll acks s' :=
  applyCommitted_keeps (I := PacesAll acks)
    (fun _ _ _ paces next => by refine paces.of_same ?_ ?_ ?_ ?_ ?_ <;> rw [next.core]) paces ran

variable {msec : Int}

theorem pacesAll_periodicTick (paces : PacesAll acks s) (seated : Seated me s)
    (spare : s.state ≠ .leader → s.numVotingNodes = 1 → s.selfVoting = some true → s.Spare)
    (ran : s.periodicTick env msec = .ok s') : PacesAll acks s' := by
  have ticked : Seated me { s with timeoutElapsed := s.timeoutElapsed + msec } :=
    seated.light (Light.hint s.currentLeader _ : Light env (.periodic msec) s _)
  -- a lone voter takes the lead at once
  have first : ∀ t, Server.Ticks env { s with timeoutElapsed := s.timeoutElapsed + msec } t →
      Seated me t ∧ PacesAll acks t := by
    rintro t (rfl | ⟨below, one, voting, rfl⟩)
    · exact ⟨ticked, paces.of_same rfl rfl rfl rfl rfl⟩
    · have act : Light env (.periodic msec) { s with timeoutElapsed := s.timeoutElapsed + msec } _ :=
        .alone below one voting
      exact ⟨ticked.light act,
        pacesAll_raftBecomeLeader ticked.chain ticked.distinct (spare below one voting)⟩
  refine periodicTick_rule (P := fun r => r = .ok s' → PacesAll acks s') env rfl
    (fun t _ _ same => ?_) (fun t ticks _ same => ?_) (fun t _ _ _ _ same => ?_)
    (fun t _ below same => ?_) ran <;> cases same
  · obtain ⟨seated, paces⟩ := first t ticks
    exact (Crept.of_leaderTick seated.chain.wf seated.distinct msec).paces paces
  · obtain ⟨cs, after, -⟩ := raftBecomeCandidate_spec env t
    rw [after]
    exact .of_follower (by simp)
  · exact .of_follower below

theorem pacesAll_raftPeriodic (paces : PacesAll acks s) (seated : Seated me s)
    (spare : s.state ≠ .leader → s.numVotingNodes = 1 → s.selfVoting = some true → s.Spare)
    (ran : s.raftPeriodic env msec = .ok s') : PacesAll acks s' := by
  unfold Server.raftPeriodic at ran
  split at ran
  · cases ran
  rename_i s₁ ticked
  have kept := pacesAll_periodicTick paces seated spare ticked
  split at ran
  · cases ran
  · rename_i s₂ applied
    cases ran
    have done := pacesAll_applyCommitted kept applied
    refine done.of_same ?_ ?_ ?_ ?_ ?_ <;> rw [compactLog_core]
  · rename_i s₂ applied
    cases ran
    exact pacesAll_applyCommitted kept applied

variable {source : ι} {r : MsgAppendentriesResponse}

/-- An appendentries leaves a leader only where it was refused. -/
theorem pacesAll_raftRecvAppendentries {ae : MsgAppendentries ι α} (paces : PacesAll acks s)
    (foreign : s.state = .leader → ae.term ≠ s.currentTerm)
    (ran : s.raftRecvAppendentries source ae = .ok (s', r)) : PacesAll acks s' := by
  by_cases current : s.currentTerm ≤ ae.term
  · refine .of_follower fun leads => ?_
    rw [(raftRecvAppendentries_role current ran).2, Server.adopted] at leads
    split at leads
    · cases leads
    · rename_i same
      split at leads
      · cases leads
      · rw [heard_core] at leads
        exact foreign leads (by omega)
  · have outcome := raftRecvAppendentries_spec s source ae
    rw [ran] at outcome
    cases outcome with
    | stale older =>
      change PacesAll acks (s.heard ae)
      rw [heard_core]
      exact paces.of_same rfl rfl rfl rfl rfl
    | missing now => exact absurd now current
    | conflict _ now => exact absurd now current
    | checked _ now => exact absurd now current

theorem pacesAll_raftRecvRequestvote {vr : MsgRequestvote ι} {r : MsgRequestvoteResponse}
    (paces : PacesAll acks s) (ran : s.raftRecvRequestvote vr = .ok (s', r)) : PacesAll acks s' := by
  unfold Server.raftRecvRequestvote at ran
  simp only at ran
  have raised : PacesAll acks (if s.currentTerm < vr.term
      then (s.setCurrentTerm vr.term).becomeFollower else s) := by
    split
    · exact .of_follower (by simp [Server.becomeFollower, Server.setState])
    · exact paces
  generalize (if s.currentTerm < vr.term
    then (s.setCurrentTerm vr.term).becomeFollower else s) = s₁ at ran raised
  split at ran
  · cases ran
  · split at ran
    · cases ran
    · cases ran
      exact raised.of_same rfl rfl rfl rfl rfl
  · cases ran
    exact raised

theorem pacesAll_raftRecvRequestvoteResponse {r : MsgRequestvoteResponse}
    (paces : PacesAll acks s) (seated : Seated me s)
    (spare : s.state = .candidate → s.currentTerm = r.term → r.voteGranted = true →
      Server.votesIsMajority s.nodes.length
      (s.updNode source (·.voteForMe true)).nvotesForMe = true → s.Spare) :
    PacesAll acks (s.raftRecvRequestvoteResponse env source r) := by
  unfold Server.raftRecvRequestvoteResponse
  split
  · exact paces
  rename_i candidate
  split
  · exact .of_follower (by simp [Server.becomeFollower, Server.setState])
  split
  · exact paces
  rename_i same
  split
  · rename_i granted
    have act : Light env (.recv source (.requestvoteResponse r)) s _ :=
      .flag (not_not.mp candidate) (not_not.mp same) granted
    have flagged := seated.light act
    simp only
    split
    · rename_i major
      refine pacesAll_raftBecomeLeader flagged.chain flagged.distinct ?_
      have length : (s.updNode source (·.voteForMe true)).nodes.length = s.nodes.length :=
        List.length_map _
      rw [length] at major
      intro nd member other silent
      obtain ⟨nd₀, old, rfl⟩ := List.mem_map.mp member
      have rest := spare (not_not.mp candidate) (not_not.mp same) granted major nd₀ old
      by_cases here : nd₀.id = source
      · rw [if_pos here] at other silent ⊢
        exact rest other silent
      · rw [if_neg here] at other silent ⊢
        exact rest other silent
    · refine .of_follower fun leads => ?_
      rw [show (s.updNode source (·.voteForMe true)).state = s.state from rfl,
        not_not.mp candidate] at leads
      cases leads
  · exact paces

variable {id : ι} {f : Node ι → Node ι}

/-- A write through the pointer of one peer. -/
theorem PacesAll.updNode (paces : PacesAll acks s) (same : ∀ nd, (f nd).id = nd.id)
    (kept : ∀ nd ∈ s.nodes, nd.id = id → Paced acks s nd → Paced acks s (f nd)) :
    PacesAll acks (s.updNode id f) := by
  intro leads nd' member other
  obtain ⟨nd, old, rfl⟩ := List.mem_map.mp member
  have paced : Paced acks s (if nd.id = id then f nd else nd) := by
    split
    · rename_i here
      rw [if_pos here, same] at other
      exact kept nd old here (paces leads nd old other)
    · rename_i elsewhere
      rw [if_neg elsewhere] at other
      exact paces leads nd old other
  exact ⟨paced.nonneg, paced.below, paced.inside, paced.acked⟩

/-- An acknowledgement inside the log. -/
theorem PacesAll.matched (paces : PacesAll acks s) (nonneg : 0 ≤ idx)
    (inside : idx ≤ s.currentIdx) (seen : (source, s.currentTerm, idx) ∈ acks) :
    PacesAll acks (s.updNode source fun nd =>
      (nd.setNextIdx (max (idx + 1) nd.nextIdx)).setMatchIdx idx) := by
  refine paces.updNode (by intro; rfl) fun nd _ here paced => ?_
  have bound := paced.inside
  have next : (nd.setNextIdx (max (idx + 1) nd.nextIdx)).nextIdx = max (idx + 1) nd.nextIdx := by
    simp only [Node.setNextIdx]
    rw [if_neg (by omega)]
  refine ⟨nonneg, ?_, ?_, Or.inr (here ▸ seen)⟩
  · change idx < (nd.setNextIdx _).nextIdx
    omega
  · change (nd.setNextIdx _).nextIdx ≤ s.currentIdx + 1
    omega

variable {nd : Node ι}

/-- A refusal. -/
theorem PacesAll.refused (paces : PacesAll acks s) (seated : Seated me s)
    (found : s.getNode source = some nd) (short : idx ≤ s.currentIdx)
    (above : nd.matchIdx < (nd.setNextIdx idx).nextIdx) :
    PacesAll acks (s.updNode source (·.setNextIdx idx)) := by
  refine paces.updNode (by intro; rfl) fun nd₀ old here paced => ?_
  have one := getNode_of_mem seated.distinct old
  rw [here, found] at one
  cases one
  have bottom : 0 ≤ s.currentIdx := seated.chain.wf.front_nonneg.trans seated.chain.wf.front_le
  refine ⟨paced.nonneg, above, ?_, paced.acked⟩
  simp only [Node.setNextIdx]
  split <;> omega

theorem Seated.updNode (same : ∀ nd, (f nd).id = nd.id) (seated : Seated me s) :
    Seated me (s.updNode id f) :=
  ⟨(advances_updNode s id f seated.chain).1, seated.me_eq, seated.own,
    updNode_distinct same seated.distinct⟩

theorem pacesAll_promote (paces : PacesAll acks s) (seated : Seated me s)
    (ran : s.promote env nd idx = .ok s') : Seated me s' ∧ PacesAll acks s' := by
  have flagged : ∀ t : Server ι α, Seated me t → PacesAll acks t →
      Seated me (t.updNode nd.id fun nd => { nd with hasSufficientLog := true }) ∧
        PacesAll acks (t.updNode nd.id fun nd => { nd with hasSufficientLog := true }) := by
    intro t seated paces
    refine ⟨seated.updNode (by intro; rfl), paces.updNode (by intro; rfl) fun _ _ _ paced => ?_⟩
    exact ⟨paced.nonneg, paced.below, paced.inside, paced.acked⟩
  unfold Server.promote at ran
  split at ran
  · split at ran
    · cases ran
    · rename_i s₁ asked
      cases ran
      unfold Server.raftHasSufficientLogs at asked
      split at asked
      · cases asked
        exact flagged s seated paces
      · split at asked <;> cases asked
    · rename_i s₁ asked
      cases ran
      unfold Server.raftHasSufficientLogs at asked
      split at asked
      · cases asked
      · split at asked
        · cases asked
        · rename_i result submitted
          cases asked
          have does := recvEntryBatch_does env (.recvEntryBatch
            [{ id := 1, type := .addNode nd.id, data := env.completion }]) s rfl
          rw [submitted] at does
          exact ⟨seated.course does.course, pacesAll_raftRecvEntryBatch paces seated submitted⟩
  · cases ran
    exact ⟨seated, paces⟩

theorem pacesAll_ackReceived (paces : PacesAll acks s) (seated : Seated me s)
    (found : s.getNode source = some nd) (nonneg : 0 ≤ idx)
    (seen : (source, s.currentTerm, idx) ∈ acks) (ran : s.ackReceived env nd idx = .ok s') :
    PacesAll acks s' := by
  obtain ⟨-, rfl⟩ := mem_of_getNode found
  unfold Server.ackReceived at ran
  split at ran
  · cases ran
  rename_i inside
  simp only at ran
  split at ran
  · cases ran
  rename_i s₁ promoted
  obtain ⟨seated₁, paces₁⟩ := pacesAll_promote (paces.matched nonneg (by omega) seen)
    (seated.updNode (by intro; rfl)) promoted
  split at ran
  · cases ran
  rename_i s₂ advanced
  have counted : Seated me s₂ ∧ PacesAll acks s₂ := by
    have act : Light env (.recv nd.id (.appendentriesResponse ⟨0, true, idx, 0⟩)) s₁ s₂ :=
      .advance advanced
    refine ⟨seated₁.light act, ?_⟩
    rw [(advanceCommit_commits advanced).core]
    exact paces₁.of_same rfl rfl rfl rfl rfl
  split at ran
  · cases ran
  rename_i s₃ done applied
  cases ran
  refine pacesAll_applyCommitted ?_ applied
  split
  · exact (Crept.of_send counted.1.chain.wf counted.1.distinct _).paces counted.2
  · exact counted.2

theorem pacesAll_raftRecvAppendentriesResponse (paces : PacesAll acks s) (seated : Seated me s)
    (nonneg : r.success = true → 0 ≤ r.currentIdx)
    (seen : r.success = true → (source, r.term, r.currentIdx) ∈ acks)
    (ran : s.raftRecvAppendentriesResponse env source r = .ok s') : PacesAll acks s' := by
  unfold Server.raftRecvAppendentriesResponse at ran
  split at ran
  · cases ran
    exact paces
  rename_i nd found
  split at ran
  · cases ran
    exact paces
  split at ran
  · cases ran
    exact paces
  split at ran
  · cases ran
    exact .of_follower (by simp [Server.becomeFollower, Server.setState])
  split at ran
  · cases ran
    exact paces
  rename_i same
  split at ran
  · simp only at ran
    split at ran
    · rename_i above
      cases ran
      obtain ⟨-, rfl⟩ := mem_of_getNode found
      have refused := paces.refused seated found (by omega) above
      have kept : Seated me (s.updNode nd.id (·.setNextIdx (min (r.currentIdx + 1) s.currentIdx))) :=
        seated.updNode (by intro; rfl)
      exact (Crept.of_send kept.chain.wf kept.distinct _).paces refused
    · cases ran
  · rename_i positive
    have success : r.success = true := by simpa using positive
    exact pacesAll_ackReceived paces seated found (nonneg success)
      (not_not.mp same ▸ seen success) ran

end Calls

/-! ## Runs -/

/-- A server and the acknowledgements it was sent: the node, the term, and the index. -/
structure Observed (ι α : Type) where
  server : Server ι α
  acks : List (ι × Int × Int)

/-- What a call acknowledges. -/
def ackOf : Input ι α → List (ι × Int × Int)
  | .recv source (.appendentriesResponse r) =>
    if r.success = true then [(source, r.term, r.currentIdx)] else []
  | _ => []

/-- A call of the server, with what it acknowledges. -/
def Observed.step (o : Observed ι α) (l : Env α × Input ι α) : Option (Observed ι α) :=
  (o.server.step l).map fun s => ⟨s, o.acks ++ ackOf l.2⟩

/-- A call that makes the server leader. -/
def Server.Elects (s : Server ι α) : Input ι α → Prop
  | .periodic _ => s.state ≠ .leader ∧ s.numVotingNodes = 1 ∧ s.selfVoting = some true
  | .recv source (.requestvoteResponse r) =>
    s.state = .candidate ∧ s.currentTerm = r.term ∧ r.voteGranted = true ∧
      Server.votesIsMajority s.nodes.length
        (s.updNode source (·.voteForMe true)).nvotesForMe = true
  | _ => False

instance (s : Server ι α) : ∀ input : Input ι α, Decidable (s.Elects input)
  | .periodic _ | .recv _ (.requestvoteResponse _) => inferInstanceAs (Decidable (_ ∧ _))
  | .recv _ (.requestvote _) | .recv _ (.appendentries _) | .recv _ (.appendentriesResponse _)
  | .recvEntry _ | .recvEntryBatch _ | .checkpoint _ => isFalse id

/-- What a message brings: no appendentries of a leader's own term, and no negative index. -/
def Server.Regular (s : Server ι α) : Input ι α → Prop
  | .recv _ (.appendentries ae) => s.state = .leader → ae.term ≠ s.currentTerm
  | .recv _ (.appendentriesResponse r) => r.success = true → 0 ≤ r.currentIdx
  | _ => True

instance (s : Server ι α) : ∀ input : Input ι α, Decidable (s.Regular input)
  | .recv _ (.appendentries _) | .recv _ (.appendentriesResponse _) =>
    inferInstanceAs (Decidable (_ → _))
  | .recv _ (.requestvote _) | .recv _ (.requestvoteResponse _)
  | .recvEntry _ | .recvEntryBatch _ | .periodic _ | .checkpoint _ => isTrue trivial

/-- A server takes the lead only over nodes without a vote that have no progress left over. -/
def Fair (o : Observed ι α) (l : Env α × Input ι α) : Prop :=
  (o.server.Elects l.2 → o.server.Spare) ∧ o.server.Regular l.2

instance (o : Observed ι α) (l : Env α × Input ι α) : Decidable (Fair o l) :=
  inferInstanceAs (Decidable (_ ∧ _))

theorem pacesAll_step {me : ι} {o o' : Observed ι α} {l : Env α × Input ι α}
    (seated : Seated me o.server) (paces : PacesAll o.acks o.server) (fair : Fair o l)
    (taken : o.step l = some o') : Seated me o'.server ∧ PacesAll o'.acks o'.server := by
  obtain ⟨s', called, rfl⟩ := Option.map_eq_some_iff.mp taken
  refine ⟨seated.course (step_course called), ?_⟩
  obtain ⟨env, input⟩ := l
  obtain ⟨spare, regular⟩ := fair
  have grown : PacesAll (o.acks ++ ackOf input) o.server :=
    paces.mono (List.subset_append_left _ _)
  unfold Server.step at called
  split at called
  · rename_i p ran
    cases called
    cases input with
    | periodic msec =>
      obtain ⟨s', called, rfl⟩ := ok_of_map ran
      exact pacesAll_raftPeriodic grown seated (fun below one votes => spare ⟨below, one, votes⟩) called
    | recvEntry e =>
      obtain ⟨⟨s', answer⟩, called, rfl⟩ := ok_of_map ran
      exact pacesAll_raftRecvEntry grown seated called
    | recvEntryBatch es =>
      obtain ⟨⟨s', answer⟩, called, rfl⟩ := ok_of_map ran
      exact pacesAll_raftRecvEntryBatch grown seated called
    | checkpoint logIndex =>
      cases ran
      exact grown.of_same rfl rfl rfl rfl rfl
    | recv source msg =>
      cases msg with
      | requestvote vr =>
        obtain ⟨⟨s', r⟩, called, rfl⟩ := ok_of_map ran
        exact pacesAll_raftRecvRequestvote grown called
      | requestvoteResponse r =>
        cases ran
        exact pacesAll_raftRecvRequestvoteResponse grown seated
          fun candidate same granted major => spare ⟨candidate, same, granted, major⟩
      | appendentries ae =>
        obtain ⟨⟨s', r⟩, called, rfl⟩ := ok_of_map ran
        exact pacesAll_raftRecvAppendentries grown regular called
      | appendentriesResponse r =>
        obtain ⟨s', called, rfl⟩ := ok_of_map ran
        refine pacesAll_raftRecvAppendentriesResponse grown seated regular (fun success => ?_) called
        simp [ackOf, success]
  · cases called

theorem enrol_own (me : ι) (replicas : Nat) (cfg : Config) (members : List (ι × Bool)) :
    (Server.enrol me replicas cfg members : Server ι α).me = me ∧
      (Server.enrol me replicas cfg members : Server ι α).state = .follower ∧
      ∀ id, (Server.enrol me replicas cfg members : Server ι α).node = some id → id = me := by
  unfold Server.enrol
  apply List.foldlRecOn (motive := fun s : Server ι α =>
    s.me = me ∧ s.state = .follower ∧ ∀ id, s.node = some id → id = me)
  · exact ⟨rfl, rfl, fun _ => nofun⟩
  · rintro s ⟨self, state, own⟩ p -
    have self' : (s.raftAddNode p.1 (p.1 = me)).me = s.me := by rw [raftAddNode_core]
    have state' : (s.raftAddNode p.1 (p.1 = me)).state = s.state := by rw [raftAddNode_core]
    have own' := raftAddNode_own own p.1
    split <;> exact ⟨self'.trans self, state'.trans state, own'⟩

theorem enrol_seated (me : ι) (replicas : Nat) {cfg : Config} (members : List (ι × Bool))
    (target : 1 ≤ cfg.logTarget) :
    Seated me (Server.enrol me replicas cfg members : Server ι α) := by
  obtain ⟨fresh, distinct⟩ := enrol_start (α := α) me replicas members target
  obtain ⟨self, -, own⟩ := enrol_own (α := α) me replicas cfg members
  exact ⟨fresh.indexChain, self, own, distinct⟩

/-- **Progress.**  Along every run in which the server takes the lead only over nodes without a vote
that have no progress left over, and gets no appendentries of its own term as leader and no negative
index, a leader's indices of every other node are in order and inside the log, and its match is 0 or
was acknowledged by the node in the current term. -/
theorem progress_well_formed (me : ι) (replicas : Nat) (cfg : Config) (members : List (ι × Bool))
    (target : 1 ≤ cfg.logTarget) {o : Observed ι α}
    (run : Path Observed.step Fair ⟨Server.enrol me replicas cfg members, []⟩ o)
    (leader : o.server.state = .leader) {nd : Node ι} (member : nd ∈ o.server.nodes)
    (other : o.server.node ≠ some nd.id) :
    0 ≤ nd.matchIdx ∧ nd.matchIdx < nd.nextIdx ∧ nd.nextIdx ≤ o.server.currentIdx + 1 ∧
      (nd.matchIdx = 0 ∨ (nd.id, o.server.currentTerm, nd.matchIdx) ∈ o.acks) := by
  have start : Seated me (Server.enrol me replicas cfg members : Server ι α) ∧
      PacesAll [] (Server.enrol me replicas cfg members : Server ι α) :=
    ⟨enrol_seated me replicas members target,
      .of_follower (by rw [(enrol_own me replicas cfg members).2.1]; nofun)⟩
  have kept : Seated me o.server ∧ PacesAll o.acks o.server :=
    run.keeps (I := fun o => Seated me o.server ∧ PacesAll o.acks o.server) start
      fun _ _ _ kept fair taken => pacesAll_step kept.1 kept.2 fair taken
  have paced := kept.2 leader nd member other
  exact ⟨paced.nonneg, paced.below, paced.inside, paced.acked⟩

/-- Three voters. -/
def trio : List (Fin 4 × Bool) := [(0, true), (1, true), (2, true)]

/-- An environment in which every packet is sent. -/
def eagerEnv : Env Nat := { quietEnv 0 with tx := fun _ => 8 }

/-- A grant of server `source` in `term`. -/
def grant (source : Fin 4) (term : Int) : Env Nat × Input (Fin 4) Nat :=
  (quietEnv 0, .recv source (.requestvoteResponse { term := term, voteGranted := true }))

/-- Server 0 leads term 1, adds node 3 without a vote, and hears from it up to index 3. -/
def joins : List (Env Nat × Input (Fin 4) Nat) :=
  [(quietEnv 0, .periodic 1000), grant 1 1, grant 2 1,
    (eagerEnv, .recvEntryBatch [{ id := 0, type := .addNonvotingNode 3, data := 0 },
      { id := 0, type := .normal, data := 2 }, { id := 0, type := .normal, data := 3 },
      { id := 0, type := .normal, data := 4 }, { id := 0, type := .normal, data := 5 }]),
    (eagerEnv, .recv 3 (.appendentriesResponse
      { term := 1, success := true, currentIdx := 3, firstIdx := 1 }))]

/-- The leader of term 2 keeps the first entry only; server 0 then leads term 3. -/
def leadsAgain : List (Env Nat × Input (Fin 4) Nat) :=
  [(quietEnv 0, .recv 1 (.appendentries
      { term := 2, prevLogIdx := 1, prevLogTerm := 1, leaderCommit := 0
        entries := [{ term := 2, id := 0, type := .normal, data := 9, head := ⟨1, 1⟩ }] })),
    (quietEnv 0, .periodic 1000), grant 1 3, grant 2 3]

/-- A leader and a node without a vote that is catching up. -/
theorem progress_well_formed_joining : ∃ o : Observed (Fin 4) Nat, ∃ nd ∈ o.server.nodes,
    o.server.state = .leader ∧ nd.voting = false ∧ nd.matchIdx = 3 ∧
    (0 ≤ nd.matchIdx ∧ nd.matchIdx < nd.nextIdx ∧ nd.nextIdx ≤ o.server.currentIdx + 1 ∧
      (nd.matchIdx = 0 ∨ (nd.id, o.server.currentTerm, nd.matchIdx) ∈ o.acks)) := by
  have ran : ∃ o ∈ exec Observed.step Fair ⟨Server.enrol 0 3 defaultCfg trio, []⟩ joins,
      o.server.state = .leader ∧ ∃ nd ∈ o.server.nodes,
        o.server.node ≠ some nd.id ∧ nd.voting = false ∧ nd.matchIdx = 3 := by
    decide +kernel
  obtain ⟨o, run, leader, nd, member, other, spare, heard⟩ := Path.exists_of_exec ran
  exact ⟨o, nd, member, leader, spare, heard,
    progress_well_formed 0 3 defaultCfg trio (by decide) run leader member other⟩

/-- The election loop skips the node without a vote: its match and next index are those of the first
term, past the end of the log that the leader of the second term left. -/
theorem progress_inherited : ∃ o : Observed (Fin 4) Nat, ∃ nd ∈ o.server.nodes,
    Path Observed.step anyStep ⟨Server.enrol 0 3 defaultCfg trio, []⟩ o ∧
    o.server.state = .leader ∧ o.server.node ≠ some nd.id ∧
    ¬ nd.nextIdx ≤ o.server.currentIdx + 1 ∧
    ¬ (nd.matchIdx = 0 ∨ (nd.id, o.server.currentTerm, nd.matchIdx) ∈ o.acks) := by
  have ran : ∃ o ∈ exec Observed.step anyStep ⟨Server.enrol 0 3 defaultCfg trio, []⟩
      (joins ++ leadsAgain), o.server.state = .leader ∧
        ∃ nd ∈ o.server.nodes, o.server.node ≠ some nd.id ∧
          ¬ nd.nextIdx ≤ o.server.currentIdx + 1 ∧
          ¬ (nd.matchIdx = 0 ∨ (nd.id, o.server.currentTerm, nd.matchIdx) ∈ o.acks) := by
    decide +kernel
  obtain ⟨o, run, leader, nd, member, other, past, unheard⟩ := Path.exists_of_exec ran
  exact ⟨o, nd, member, run, leader, other, past, unheard⟩

end Cyclone.Raft
