/-
# Cluster.Ballots — the votes of a call

`Running b i s` ties a running server to the books: its term is the term in its cell, a
vote it cast in this term is the vote it remembers, a candidate has its own vote and the votes it
noted, and a leader the votes of a majority.  A call is followed action by action (`Noted.light`, `Noted.write`):
most actions the election does not see (`Mildly`), the others are a later term, standing, a vote,
a counted vote, and an election won.  The callbacks of the call are lawful in the
order they are made, so a crash between any two of them leaves sound books.
-/
import Cyclone.Cluster.Restart

namespace Cyclone

open Cyclone.Raft Cyclone.Theory Relation

set_option autoImplicit false

variable {n : Nat} {α : Type}

/-! ## A running server -/

/-- What a packet says about the votes is true. -/
def Vouched (votes : List (Vote n)) (p : Packet n α) : Prop :=
  match p.msg with
  | .requestvote rv => rv.candidateId = some p.src
  | .requestvoteResponse r => r.voteGranted = true → ⟨p.src, r.term, some p.dst⟩ ∈ votes
  | .appendentries ae => ∀ e ∈ ae.entries, e.type = .normal
  | .appendentriesResponse _ => True

/-- A call on server `i` by a client with client entries, or with a packet that tells the truth. -/
def InputVouched (votes : List (Vote n)) (i : Fin n) : Input (Fin n) α → Prop
  | .recvEntry e => e.type = .normal
  | .recvEntryBatch es => ∀ e ∈ es, e.type = .normal
  | .recv source msg => Vouched votes ⟨source, i, msg⟩
  | _ => True

/-- Server `i` has the votes of a majority in a term. -/
def Elected (votes : List (Vote n)) (i : Fin n) (term : Int) : Prop :=
  ∃ Q : Finset (Fin n), Majority Q ∧ ∀ j ∈ Q, ⟨j, term, some i⟩ ∈ votes

/-- What the role of a running server says about the votes. -/
structure Campaign (votes : List (Vote n)) (i : Fin n) (s : Server (Fin n) α) : Prop where
  stands : s.state = .candidate → ⟨i, s.currentTerm, some i⟩ ∈ votes
  flags : s.state = .candidate → ∀ nd ∈ s.nodes, nd.votedForMe = true →
    ⟨nd.id, s.currentTerm, some i⟩ ∈ votes
  leads : 2 ≤ n → s.state = .leader → Elected votes i s.currentTerm

theorem Campaign.follower {votes : List (Vote n)} {i : Fin n} {s : Server (Fin n) α}
    (follower : s.state = .follower) : Campaign votes i s := by
  refine ⟨fun role => ?_, fun role => ?_, fun _ role => ?_⟩ <;> rw [follower] at role <;> cases role

/-- A running server against the books. -/
structure Running (b : Books n) (i : Fin n) (s : Server (Fin n) α) : Prop
    extends Campaign b.votes i s where
  seated : Seated i s
  plain : ∀ e ∈ s.log.entries, e.type = .normal
  term : (b.cells i).term = s.currentTerm
  vote : ∀ v ∈ b.votes, v.voter = i → v.term = s.currentTerm → s.votedFor = v.candidate

variable {votes votes' : List (Vote n)}

theorem Vouched.mono (more : votes ⊆ votes') {p : Packet n α} (vouched : Vouched votes p) :
    Vouched votes' p := by
  obtain ⟨src, dst, msg⟩ := p
  cases msg with
  | requestvoteResponse r => exact fun granted => more (vouched granted)
  | requestvote | appendentries | appendentriesResponse => exact vouched

variable {i : Fin n}

theorem InputVouched.mono (more : votes ⊆ votes') {input : Input (Fin n) α}
    (vouched : InputVouched votes i input) : InputVouched votes' i input := by
  cases input with
  | recv source msg => exact Vouched.mono more vouched
  | periodic | recvEntry | recvEntryBatch | checkpoint => exact vouched

theorem Elected.mono (more : votes ⊆ votes') {term : Int} (elected : Elected votes i term) :
    Elected votes' i term := by
  obtain ⟨Q, majority, each⟩ := elected
  exact ⟨Q, majority, fun j member => more (each j member)⟩

/-- What the election keeps about a peer. -/
def badge (nd : Node (Fin n)) : (Fin n × Bool) × Bool := (nd.member, nd.votedForMe)

/-- Callbacks of server `i` that persist nothing, ask for votes only for itself, and send only
client entries. -/
def Mild (i : Fin n) (cs : List (Callback (Fin n) α)) : Prop :=
  ∀ c ∈ cs, match c with
    | .persistTerm _ => False
    | .persistVote _ => False
    | .sendRequestvote _ rv => rv.candidateId = some i
    | .sendAppendentries _ ae => ∀ e ∈ ae.entries, e.type = .normal
    | _ => True

section Mild

variable {i : Fin n} {b : Books n} {cs cs' : List (Callback (Fin n) α)}

theorem Mild.append (first : Mild i cs) (second : Mild i cs') : Mild i (cs ++ cs') := by
  intro c member
  rcases List.mem_append.mp member with old | new
  · exact first c old
  · exact second c new

/-- Nothing is written to the books. -/
theorem Mild.noteAll (mild : Mild i cs) : b.noteAll i cs = b := by
  induction cs with
  | nil => rfl
  | cons c cs ih =>
    have here := mild c List.mem_cons_self
    have rest := ih fun c' later => mild c' (List.mem_cons_of_mem c later)
    cases c with
    | persistTerm | persistVote => exact here.elim
    | sendRequestvote | sendAppendentries | applylog | logOffer | logPoll | logPollBatch
    | logPop => exact rest

theorem Mild.lawful (mild : Mild i cs) : Lawful i b cs := by
  induction cs with
  | nil => trivial
  | cons c cs ih =>
    have here := mild c List.mem_cons_self
    have rest := ih fun c' later => mild c' (List.mem_cons_of_mem c later)
    cases c with
    | persistTerm | persistVote => exact here.elim
    | sendRequestvote | sendAppendentries | applylog | logOffer | logPoll | logPollBatch
    | logPop => exact ⟨here, rest⟩

end Mild

/-- The election does not see the difference between `s` and `s'`. -/
structure Mildly (i : Fin n) (s s' : Server (Fin n) α) : Prop where
  currentTerm : s'.currentTerm = s.currentTerm
  votedFor : s'.votedFor = s.votedFor
  state : s'.state = s.state
  node : s'.node = s.node
  badges : s'.nodes.map badge = s.nodes.map badge
  plain : ∀ e ∈ s'.log.entries, e.type = .normal
  calls : ∃ cs, s'.calls = s.calls ++ cs ∧ Mild i cs

section Acts

variable {env : Env α} {i : Fin n} {b : Books n} {s s' s'' : Server (Fin n) α}
  {input : Input (Fin n) α}

theorem Mildly.trans (first : Mildly i s s') (second : Mildly i s' s'') : Mildly i s s'' := by
  obtain ⟨cs, calls, mild⟩ := first.calls
  obtain ⟨cs', calls', mild'⟩ := second.calls
  refine ⟨second.currentTerm.trans first.currentTerm, second.votedFor.trans first.votedFor,
    second.state.trans first.state, second.node.trans first.node,
    second.badges.trans first.badges, second.plain, cs ++ cs', ?_, mild.append mild'⟩
  rw [calls', calls, List.append_assoc]

/-- The same server but for fields the election does not read. -/
theorem Mildly.of_same (running : Running b i s) (term : s'.currentTerm = s.currentTerm)
    (vote : s'.votedFor = s.votedFor) (state : s'.state = s.state) (node : s'.node = s.node)
    (nodes : s'.nodes.map badge = s.nodes.map badge)
    (log : s'.log.entries <+: s.log.entries)
    (calls : ∃ cs, s'.calls = s.calls ++ cs ∧ Mild i cs) : Mildly i s s' :=
  ⟨term, vote, state, node, nodes, fun e member => running.plain e (log.subset member), calls⟩

/-- What is sent is cut from the log. -/
theorem Running.sends_plain (running : Running b i s) {m : MsgAppendentries (Fin n) α}
    (sends : s.Sends m) : ∀ e ∈ m.entries, e.type = .normal := by
  obtain ⟨nextIdx, -, packet⟩ := sends
  have inLog : ∀ e ∈ (s.mkAppendentries nextIdx).entries, e.type = .normal :=
    fun e member => running.plain e (mem_of_getFromIdx member)
  unfold sendAppendentriesOpt at packet
  split at packet
  · rw [List.mem_singleton.mp packet]
    exact inLog
  · obtain ⟨e, taken, rfl⟩ := List.mem_map.mp packet
    intro e' only
    rw [List.mem_singleton.mp only]
    exact inLog e (List.mem_of_mem_take taken)

theorem Mildly.of_sent {who : Fin n → Prop} (running : Running b i s) (sent : Sent who s s') :
    Mildly i s s' := by
  obtain ⟨cs, calls, each⟩ := sent.sends
  refine .of_same running sent.currentTerm sent.votedFor sent.state sent.node ?_
    (by rw [sent.log]) ⟨cs, calls, fun c member => ?_⟩
  · have same := congrArg (List.map badge) sent.bare
    simp only [List.map_map] at same
    exact same
  · obtain ⟨id, m, rfl, -, sends⟩ := each c member
    exact running.sends_plain sends

/-- Client entries change no node. -/
theorem Mildly.of_appended {es : List (Entry (Fin n) α)} (running : Running b i s)
    (normal : ∀ e ∈ es, e.type = .normal) (appended : Appended s s' es) : Mildly i s s' := by
  have core := appended.core
  rw [applyCfg_normal s normal] at core
  refine ⟨by rw [core], by rw [core], by rw [core], by rw [core], by rw [core], fun e member => ?_,
    offers s.log.back es, by rw [core], ?_⟩
  · rw [appended.grown.entries_eq] at member
    rcases List.mem_append.mp member with old | new
    · exact running.plain e old
    · exact normal e new
  · intro c member
    obtain ⟨e, idx, rfl⟩ := mem_offers member
    trivial

/-- A server that differs only for the election's blind spot is as good. -/
theorem Running.mildly (running : Running b i s) (mildly : Mildly i s s') : Running b i s' := by
  have members : s'.nodes.map Node.member = s.nodes.map Node.member := by
    have same := congrArg (List.map Prod.fst) mildly.badges
    simp only [List.map_map] at same
    exact same
  refine
    { seated := running.seated.of_same mildly.node members
      plain := mildly.plain
      term := running.term.trans mildly.currentTerm.symm
      vote := ?_
      stands := ?_
      flags := ?_
      leads := ?_ }
  · rw [mildly.currentTerm, mildly.state]
    exact running.stands
  · rw [mildly.currentTerm, mildly.state]
    intro candidate nd member granted
    obtain ⟨nd₀, old, same⟩ := exists_peer mildly.badges member
    have id : nd₀.id = nd.id := congrArg (fun x => x.1.1) same
    have vote : nd₀.votedForMe = nd.votedForMe := congrArg Prod.snd same
    rw [← id]
    exact running.flags candidate nd₀ old (vote.trans granted)
  · rw [mildly.currentTerm, mildly.state]
    exact running.leads
  · rw [mildly.currentTerm, mildly.votedFor]
    exact running.vote

/-! ## The actions of a call -/

/-- A call on server `i` got from `s` to `s'` and wrote the books from `b` to `b'`.  A server
that leads at the end, or stands without a timeout, has not voted on the way. -/
structure Noted (b : Books n) (i : Fin n) (input : Input (Fin n) α) (s : Server (Fin n) α)
    (b' : Books n) (s' : Server (Fin n) α) : Prop where
  calls : ∃ cs, s'.calls = s.calls ++ cs ∧ Lawful i b cs ∧ b' = b.noteAll i cs
  running : Running b' i s'
  led : 2 ≤ n → s'.state = .leader → b'.votes = b.votes
  stood : (∀ msec, input ≠ .periodic msec) → s'.state = .candidate → b'.votes = b.votes

variable {b' : Books n}

theorem Noted.refl (running : Running b i s) : Noted b i input s b s :=
  ⟨⟨[], by simp, trivial, rfl⟩, running, fun _ _ => rfl, fun _ _ => rfl⟩

theorem Noted.mildly (noted : Noted b i input s b' s') (mildly : Mildly i s' s'') :
    Noted b i input s b' s'' := by
  obtain ⟨cs, calls, lawful, rfl⟩ := noted.calls
  obtain ⟨cs', calls', mild⟩ := mildly.calls
  refine ⟨⟨cs ++ cs', ?_, lawful.append mild.lawful, ?_⟩, noted.running.mildly mildly, ?_, ?_⟩
  · rw [calls', calls, List.append_assoc]
  · rw [Books.noteAll_append, mild.noteAll]
  · rw [mildly.state]
    exact noted.led
  · rw [mildly.state]
    exact noted.stood

/-- One more lawful callback. -/
theorem Noted.calls_snoc (noted : Noted b i input s b' s') {c : Callback (Fin n) α}
    (lawful : LawfulCall i b' c) (made : s''.calls = s'.calls ++ [c]) :
    ∃ cs, s''.calls = s.calls ++ cs ∧ Lawful i b cs ∧ b'.note i c = b.noteAll i cs := by
  obtain ⟨cs, calls, before, rfl⟩ := noted.calls
  refine ⟨cs ++ [c], ?_, before.append ⟨lawful, trivial⟩, ?_⟩
  · rw [made, calls, List.append_assoc]
  · rw [Books.noteAll_append]
    rfl

theorem note_cell (b : Books n) (i : Fin n) (term : Int) :
    ((b.note i (.persistTerm term : Callback (Fin n) α)).cells i).term = term := by
  simp [Books.note]

theorem note_vote_cell (b : Books n) (i : Fin n) (votedFor : Option (Fin n)) :
    (b.note i (.persistVote votedFor : Callback (Fin n) α)).cells i =
      { b.cells i with votedFor := votedFor } := by
  simp [Books.note]

variable {term : Int}

/-- A term a server has not reached holds no vote of it. -/
theorem Running.unreached (running : Running b i s) (sound : Sound b)
    (later : s.currentTerm < term) : ∀ v ∈ b.votes, v.voter = i → v.term ≠ term := by
  intro v member mine here
  have reached := sound.reached v member
  rw [mine, running.term] at reached
  omega

/-- A later term is persisted before anything is done in it. -/
theorem Noted.raise (noted : Noted b i input s b' s') (sound : Sound b')
    (later : s'.currentTerm < term) :
    Noted b i input s (b'.note i (.persistTerm term : Callback (Fin n) α))
      (s'.setCurrentTerm term).becomeFollower := by
  have running := noted.running
  rw [setCurrentTerm_of_lt later]
  have lawful : LawfulCall i b' (.persistTerm term : Callback (Fin n) α) :=
    running.term.trans_lt later
  refine ⟨noted.calls_snoc lawful rfl, ?_, ?_, ?_⟩
  · refine
      { seated := running.seated.of_same rfl rfl
        plain := running.plain
        term := note_cell b' i term
        vote := fun v member mine here => ?_
        toCampaign := .follower rfl }
    exact absurd here (running.unreached sound later v member mine)
  · intro _ role
    cases role
  · intro _ role
    cases role

/-- A server that remembers no vote has cast none in its term. -/
theorem Running.unvoted (running : Running b i s) (sound : Sound b) (none_ : s.votedFor = none) :
    ∀ v ∈ b.votes, v.voter = i → v.term ≠ (b.cells i).term := by
  intro v member mine here
  have voted := running.vote v member mine (here.trans running.term)
  rw [none_] at voted
  exact sound.named v member voted.symm

theorem Noted.vote (noted : Noted b i input s b' s') (sound : Sound b') (none_ : s'.votedFor = none)
    (follower : s'.state = .follower) (candidate : Fin n) :
    Noted b i input s (b'.note i (.persistVote (some candidate) : Callback (Fin n) α))
      (s'.voteForNodeid (some candidate)) := by
  have running := noted.running
  have fresh := running.unvoted sound none_
  have role : (s'.voteForNodeid (some candidate)).state = .follower := follower
  have lawful : LawfulCall i b' (.persistVote (some candidate) : Callback (Fin n) α) :=
    ⟨Option.some_ne_none _, fresh⟩
  refine ⟨noted.calls_snoc lawful rfl, ?_, ?_, ?_⟩
  · refine
      { seated := running.seated.of_same rfl rfl
        plain := running.plain
        term := by
          rw [note_vote_cell]
          exact running.term
        vote := fun v member mine here => ?_
        toCampaign := .follower role }
    rcases List.mem_append.mp member with old | new
    · exact absurd (here.trans running.term.symm) (fresh v old mine)
    · rw [List.mem_singleton.mp new]
      rfl
  · intro _ other
    rw [role] at other
    cases other
  · intro _ other
    rw [role] at other
    cases other

/-- A server stands: a new term, then its own vote, then the requests. -/
theorem Noted.stand (noted : Noted b i input s b' s') (sound : Sound b')
    (timeout : ∃ msec, input = .periodic msec) :
    ∃ b'', Noted b i input s b'' (s'.raftBecomeCandidate env) := by
  have running := noted.running
  have seated := running.seated.of_same (quiet_raftBecomeCandidate env s').node
    (quiet_raftBecomeCandidate env s').members
  obtain ⟨cs', after, each⟩ := raftBecomeCandidate_spec env s'
  rw [after] at seated ⊢
  have later : s'.currentTerm < s'.currentTerm + 1 := by omega
  have unreached := running.unreached sound later
  have mild : Mild i cs' := by
    intro c member
    obtain ⟨id, -, rfl⟩ := each c member
    exact running.seated.node
  let mine : Vote n := ⟨i, s'.currentTerm + 1, some i⟩
  obtain ⟨b'', written⟩ : ∃ b'', b'' = b'.noteAll i
      [(.persistTerm (s'.currentTerm + 1) : Callback (Fin n) α), .persistVote s'.node] := ⟨_, rfl⟩
  have votes : b''.votes = b'.votes ++ [mine] := by
    rw [written]
    simp [Books.noteAll, Books.note, running.seated.node, mine]
  have cell : (b''.cells i).term = s'.currentTerm + 1 := by
    rw [written]
    simp [Books.noteAll, Books.note]
  have lawful : Lawful i b'
      [(.persistTerm (s'.currentTerm + 1) : Callback (Fin n) α), .persistVote s'.node] := by
    refine ⟨running.term.trans_lt later, ⟨?_, fun v member voter => ?_⟩, trivial⟩
    · rw [running.seated.node]
      exact Option.some_ne_none i
    · rw [note_cell]
      exact unreached v member voter
  refine ⟨b'', ?_, ?_, ?_, ?_⟩
  · obtain ⟨cs, calls, before, rfl⟩ := noted.calls
    refine ⟨cs ++ ([.persistTerm (s'.currentTerm + 1), .persistVote s'.node] ++ cs'), ?_,
      before.append (lawful.append mild.lawful), ?_⟩
    · simp only [calls, List.append_assoc]
    · rw [Books.noteAll_append, Books.noteAll_append, mild.noteAll, written]
  · refine
      { seated := seated
        plain := running.plain
        term := cell
        stands := fun _ => by rw [votes]; exact List.mem_append_right _ List.mem_cons_self
        flags := fun _ nd member granted => ?_
        leads := fun _ role => by cases role
        vote := fun v member voter here => ?_ }
    · obtain ⟨nd₀, -, rfl⟩ := List.mem_map.mp member
      cases granted
    · rw [votes] at member
      rcases List.mem_append.mp member with old | new
      · exact absurd here (unreached v old voter)
      · rw [List.mem_singleton.mp new]
        exact running.seated.node
  · intro _ role
    cases role
  · intro silent
    obtain ⟨msec, same⟩ := timeout
    exact absurd same (silent msec)

/-- A candidate counts the votes of a majority and leads. -/
theorem Noted.lead (noted : Noted b i input s b' s')
    (unvoted : 2 ≤ n → b'.votes = b.votes)
    (elected : 2 ≤ n → Elected b'.votes i s'.currentTerm) :
    Noted b i input s b' (s'.raftBecomeLeader env) := by
  have running := noted.running
  have quiet := quiet_raftBecomeLeader env s'
  have lead := raftBecomeLeader_spec env running.seated.nodup
  generalize s'.raftBecomeLeader env = t at quiet lead
  obtain ⟨cs', made, each⟩ := lead.sends
  have state : t.state = .leader := by rw [lead.core]
  have term : t.currentTerm = s'.currentTerm := by rw [lead.core]
  have vote : t.votedFor = s'.votedFor := by rw [lead.core]
  have mild : Mild i cs' := by
    intro c member
    obtain ⟨id, m, rfl, -, sends⟩ := each c member
    exact running.sends_plain sends
  refine ⟨?_, ?_, ?_, ?_⟩
  · obtain ⟨cs, calls, before, rfl⟩ := noted.calls
    refine ⟨cs ++ cs', ?_, before.append mild.lawful, ?_⟩
    · rw [made, calls, List.append_assoc]
    · rw [Books.noteAll_append, mild.noteAll]
  · exact
      { seated := running.seated.of_same quiet.node quiet.members
        plain := by rw [quiet.log]; exact running.plain
        term := running.term.trans term.symm
        vote := by rw [term, vote]; exact running.vote
        stands := fun role => by rw [state] at role; cases role
        flags := fun role => by rw [state] at role; cases role
        leads := fun two _ => by rw [term]; exact elected two }
  · intro two _
    exact unvoted two
  · intro _ role
    rw [state] at role
    cases role

/-- A candidate gives up within its term. -/
theorem Noted.giveUp (noted : Noted b i input s b' s') :
    Noted b i input s b' s'.becomeFollower := by
  have running := noted.running
  obtain ⟨cs, calls, lawful, same⟩ := noted.calls
  refine ⟨⟨cs, calls, lawful, same⟩, ?_, fun _ role => ?_, fun _ role => ?_⟩
  · exact
      { seated := running.seated.of_same rfl rfl
        plain := running.plain
        term := running.term
        vote := running.vote
        toCampaign := .follower rfl }
  · cases role
  · cases role

variable {source : Fin n}

/-- A vote of the current term is noted. -/
theorem Noted.flag (noted : Noted b i input s b' s') (candidate : s'.state = .candidate)
    (voted : ⟨source, s'.currentTerm, some i⟩ ∈ b'.votes) :
    Noted b i input s b' (s'.updNode source (·.voteForMe true)) := by
  have running := noted.running
  have role : (s'.updNode source (·.voteForMe true)).state = .candidate := candidate
  have members := map_updNode (s := s') (f := (·.voteForMe true)) (g := Node.member)
    (fun _ => rfl) source
  refine ⟨noted.calls, ?_, fun _ leader => ?_, fun silent _ => noted.stood silent candidate⟩
  · refine
      { seated := running.seated.of_same rfl members
        plain := running.plain
        term := running.term
        vote := running.vote
        stands := running.stands
        flags := fun _ nd member granted => ?_
        leads := running.leads }
    obtain ⟨nd₀, old, rfl⟩ := List.mem_map.mp member
    by_cases here : nd₀.id = source
    · rw [if_pos here]
      exact here ▸ voted
    · rw [if_neg here] at granted ⊢
      exact running.flags candidate nd₀ old granted
  · rw [role] at leader
    cases leader

theorem Running.elected (running : Running b i s) (candidate : s.state = .candidate)
    (major : Server.votesIsMajority s.nodes.length s.nvotesForMe = true) :
    Elected b.votes i s.currentTerm := by
  obtain ⟨Q, majority, each⟩ := running.seated.won major
  refine ⟨Q, majority, fun j member => ?_⟩
  rcases each j member with rfl | ⟨nd, inNodes, rfl, -, granted⟩
  · exact running.stands candidate
  · exact running.flags candidate nd inNodes granted

/-! Actions the election does not see. -/

theorem mildly_updNode (running : Running b i s) (id : Fin n) {f : Node (Fin n) → Node (Fin n)}
    (same : ∀ nd, badge (f nd) = badge nd) : Mildly i s (s.updNode id f) :=
  .of_same running rfl rfl rfl rfl (map_updNode same id) List.prefix_rfl
    ⟨[], by simp [Server.updNode], by simp [Mild]⟩

theorem mildly_truncate (running : Running b i s) (idx : Int) : Mildly i s (s.truncate idx) := by
  refine .of_same running rfl rfl rfl rfl rfl (logPopLoop_starts _ _) ⟨_, rfl, fun c member => ?_⟩
  obtain ⟨p, -, rfl⟩ := List.mem_map.mp member
  trivial

theorem mildly_commits (running : Running b i s) (commits : Commits s s') : Mildly i s s' := by
  rw [commits.core]
  exact .of_same running rfl rfl rfl rfl rfl List.prefix_rfl ⟨[], by simp, by simp [Mild]⟩

theorem mildly_taken (running : Running b i s) {ae : MsgAppendentries (Fin n) α}
    (normal : ∀ e ∈ ae.entries, e.type = .normal) {k : Nat} {cut : Option Int}
    (scan : Scan s ae k cut) : Mildly i s (s.taken ae k cut) := by
  have cuts : Mildly i s (s.cutAt cut) := by
    cases cut with
    | none => exact .of_same running rfl rfl rfl rfl rfl List.prefix_rfl ⟨[], by simp [Server.cutAt], by simp [Mild]⟩
    | some idx => exact mildly_truncate running idx
  have running' := running.mildly cuts
  obtain ⟨s₁, appended, written⟩ := acceptEntries_spec (s.cutAt cut) scan.short
  have writes : Mildly i (s.cutAt cut) s₁ := by
    refine .of_appended running' ?_ appended
    exact stampFrom_forall (P := fun e => e.type = .normal) (fun _ _ _ plain => plain)
      fun e member => normal e (List.mem_of_mem_drop member)
  have polls : Mildly i s₁ ((s.cutAt cut).acceptEntries ae (ae.entries.drop k)) := by
    rw [written]
    refine .of_same (running'.mildly writes) rfl rfl rfl rfl rfl List.prefix_rfl
      ⟨_, rfl, fun c member => ?_⟩
    obtain ⟨e, -, rfl⟩ := List.mem_map.mp member
    trivial
  exact (cuts.trans writes).trans polls

variable {es : List (MsgEntry (Fin n) α)}

theorem mildly_submitted (running : Running b i s) {early : Int} {s₁ s₂ : Server (Fin n) α}
    (normal : ∀ e ∈ es, e.type = .normal) (submitted : Submitted s s' es early s₁ s₂) :
    Mildly i s s' := by
  have early' : Mildly i s { s with votingCfgChangeLogIdx := early } :=
    .of_same running rfl rfl rfl rfl rfl List.prefix_rfl ⟨[], by simp, by simp [Mild]⟩
  have writes : Mildly i { s with votingCfgChangeLogIdx := early } s₁ := by
    refine .of_appended (running.mildly early') ?_ submitted.appended
    refine stampFrom_forall (P := fun e => e.type = .normal) (fun _ _ _ plain => plain)
      fun e member => ?_
    obtain ⟨m, inside, rfl⟩ := List.mem_map.mp member
    exact normal m inside
  have running₁ := (running.mildly early').mildly writes
  have sends : Mildly i s₁ s₂ := .of_sent running₁ submitted.sent
  have ends : Mildly i s₂ s' := by
    rw [submitted.ends]
    exact .of_same (running₁.mildly sends) rfl rfl rfl rfl rfl List.prefix_rfl
      ⟨[], by simp, by simp [Mild]⟩
  exact ((early'.trans writes).trans sends).trans ends

theorem mildly_appliedNext (running : Running b i s) {ety : Entry (Fin n) α}
    (next : AppliedNext s s' ety) : Mildly i s s' := by
  rw [next.core]
  exact .of_same running rfl rfl rfl rfl rfl List.prefix_rfl
    ⟨[.applylog ety s.lastAppliedIdx], rfl, by simp [Mild]⟩

theorem mildly_compactLog (running : Running b i s) : Mildly i s s.compactLog := by
  unfold Server.compactLog
  split
  · exact .of_same running rfl rfl rfl rfl rfl List.prefix_rfl ⟨[], by simp, by simp [Mild]⟩
  · refine .of_same running rfl rfl rfl rfl rfl List.prefix_rfl ⟨_, rfl, fun c member => ?_⟩
    obtain ⟨p, -, rfl⟩ := List.mem_map.mp member
    trivial

variable {votes : List (Vote n)}

/-- The entries a call may append are client entries: no peer is without a vote. -/
theorem submits_normal (running : Running b i s) (vouched : InputVouched votes i input)
    (submits : Submits env s input es) : ∀ e ∈ es, e.type = .normal := by
  obtain ⟨e, rfl, rfl⟩ | rfl | ⟨source, r, rfl, ⟨-, -, nd, found, silent, -⟩, -⟩ := submits.source
  · intro e' member
    rw [List.mem_singleton.mp member]
    exact vouched
  · exact vouched
  · have votes := running.seated.voting (mem_of_getNode found).1
    rw [silent] at votes
    cases votes

theorem Noted.sound (noted : Noted b i input s b' s') (sound : Sound b) :
    Sound b' ∧ b.votes ⊆ b'.votes := by
  obtain ⟨cs, -, lawful, rfl⟩ := noted.calls
  exact ⟨sound.noteAll lawful, b.votes_noteAll i cs⟩

/-- One action that leaves the log alone. -/
theorem Noted.light (noted : Noted b i input s b' s') (sound : Sound b)
    (vouched : InputVouched b.votes i input) (act : Light env input s' s'') :
    ∃ b'', Noted b i input s b'' s'' := by
  have running := noted.running
  obtain ⟨sound', more⟩ := noted.sound sound
  have vouched := vouched.mono more
  have same : ∀ {t : Server (Fin n) α}, t.currentTerm = s'.currentTerm → t.votedFor = s'.votedFor →
      t.state = s'.state → t.node = s'.node → t.nodes = s'.nodes → t.log = s'.log →
      t.calls = s'.calls → Noted b i input s b' t := by
    intro t term vote state node nodes log calls
    exact noted.mildly (.of_same running term vote state node (by rw [nodes]) (by rw [log])
      ⟨[], by simp [calls], by simp [Mild]⟩)
  cases act with
  | sent sent => exact ⟨b', noted.mildly (.of_sent running sent)⟩
  | hint leader elapsed => exact ⟨b', same rfl rfl rfl rfl rfl rfl rfl⟩
  | raise later => exact ⟨_, noted.raise sound' later⟩
  | giveUp => exact ⟨b', noted.giveUp⟩
  | stand => exact noted.stand sound' ⟨_, rfl⟩
  | @vote source vr _ reached granted follower =>
    have named : vr.candidateId = some source := vouched
    have none_ : s'.votedFor = none := by
      unfold Server.shouldGrantVote at granted
      split at granted
      · cases granted
      · split at granted
        · cases granted
        · rename_i unvoted
          exact not_not.mp unvoted
    rw [named]
    exact ⟨_, noted.vote sound' none_ follower source⟩
  | flag candidate term granted =>
    exact ⟨b', noted.flag candidate (by rw [term]; exact vouched granted)⟩
  | win candidate major =>
    exact ⟨b', noted.lead (fun _ => noted.stood (fun _ same => by cases same) candidate)
      fun _ => running.elected candidate major⟩
  | alone below one =>
    rw [running.seated.numVoting] at one
    exact ⟨b', noted.lead (fun two => by omega) fun two => by omega⟩
  | matched => exact ⟨b', noted.mildly (mildly_updNode running _ fun _ => rfl)⟩
  | sufficient => exact ⟨b', noted.mildly (mildly_updNode running _ fun _ => rfl)⟩
  | advance advanced =>
    exact ⟨b', noted.mildly (mildly_commits running (advanceCommit_commits advanced))⟩
  | follow term followed =>
    exact ⟨b', noted.mildly (mildly_commits running (followCommit_commits followed))⟩
  | apply next => exact ⟨b', noted.mildly (mildly_appliedNext running next)⟩
  | checkpoint => exact ⟨b', same rfl rfl rfl rfl rfl rfl rfl⟩
  | compact => exact ⟨b', noted.mildly (mildly_compactLog running)⟩

/-- The write of a call. -/
theorem Noted.write (noted : Noted b i input s b' s') (sound : Sound b)
    (vouched : InputVouched b.votes i input) (act : Writes env input s' s'') :
    Noted b i input s b' s'' := by
  have running := noted.running
  have vouched := vouched.mono (noted.sound sound).2
  cases act with
  | submit submits submitted =>
    exact noted.mildly (mildly_submitted running
      (submits_normal running vouched submits) submitted)
  | cut => exact noted.mildly (mildly_truncate running _)
  | take term follows agrees scan => exact noted.mildly (mildly_taken running vouched scan)

/-- All the actions of a call. -/
theorem Running.course (running : Running b i s) (sound : Sound b)
    (vouched : InputVouched b.votes i input) (course : Course env input s s') :
    ∃ b', Noted b i input s b' s' :=
  course.keeps (I := fun t => ∃ b', Noted b i input s b' t)
    (fun _ _ ⟨_, noted⟩ act => noted.light sound vouched act)
    (fun _ _ ⟨b', noted⟩ _ act => ⟨b', noted.write sound vouched act⟩) ⟨b, .refl running⟩

/-- What a call does on its way out of the process the election does not see either. -/
theorem Noted.ends (noted : Noted b i input s b' s') (vouched : InputVouched votes i input)
    {f : Fault (Fin n) α} (out : Ends env input s' f) : Noted b i input s b' f.server := by
  have running := noted.running
  cases out with
  | here cause => exact noted
  | removed =>
    exact noted.mildly (.of_same running rfl rfl rfl rfl rfl List.prefix_rfl
      ⟨_, rfl, by simp [Mild]⟩)
  | @emptied s₁ es early submits appended none_ =>
    have early' : Mildly i s' { s' with votingCfgChangeLogIdx := early } :=
      .of_same running rfl rfl rfl rfl rfl List.prefix_rfl ⟨[], by simp, by simp [Mild]⟩
    refine noted.mildly (early'.trans (.of_appended (running.mildly early') ?_ appended))
    refine stampFrom_forall (P := fun e => e.type = .normal) (fun _ _ _ plain => plain)
      fun e member => ?_
    obtain ⟨m, inside, rfl⟩ := List.mem_map.mp member
    exact submits_normal running vouched submits m inside

/-- A whole call, whether it returns or ends the process. -/
theorem Running.handle (running : Running b i s) (sound : Sound b)
    (vouched : InputVouched b.votes i input) (env : Env α) :
    ∃ b', Noted b i input s b' (Server.after ((s.handle env input).map Prod.fst)) := by
  have does := handle_does env input s
  generalize (s.handle env input).map Prod.fst = r at does
  cases does with
  | returns course => exact running.course sound vouched course
  | ends course out =>
    obtain ⟨b', noted⟩ := running.course sound vouched course
    exact ⟨b', noted.ends vouched out⟩

/-- A granted vote is the last thing persisted. -/
theorem recvRequestvote_granted {vr : MsgRequestvote (Fin n)} {r : MsgRequestvoteResponse}
    (ran : s.raftRecvRequestvote vr = .ok (s', r)) (granted : r.voteGranted = true) :
    r.term = s'.currentTerm ∧
      ∃ cs, s'.calls = s.calls ++ (cs ++ [.persistVote vr.candidateId]) := by
  have raised : ∃ cs, (if s.currentTerm < vr.term then (s.setCurrentTerm vr.term).becomeFollower
      else s).calls = s.calls ++ cs := by
    split
    · rename_i later
      rw [setCurrentTerm_of_lt later]
      exact ⟨_, rfl⟩
    · exact ⟨[], by simp⟩
  unfold Server.raftRecvRequestvote at ran
  simp only at ran
  generalize (if s.currentTerm < vr.term then (s.setCurrentTerm vr.term).becomeFollower
    else s) = t at raised ran
  obtain ⟨cs, calls⟩ := raised
  split at ran
  · cases ran
  · split at ran
    · cases ran
    · cases ran
      refine ⟨rfl, cs, ?_⟩
      change t.calls ++ [.persistVote vr.candidateId] = _
      rw [calls, List.append_assoc]
  · cases ran
    cases granted

/-- The answer to a message tells the truth. -/
theorem Noted.answer {msg reply : Msg (Fin n) α}
    (vouched : InputVouched b.votes i (.recv source msg))
    (ran : s.handle env (.recv source msg) = .ok (s', some reply))
    (noted : Noted b i (.recv source msg) s b' s') : Vouched b'.votes ⟨i, source, reply⟩ := by
  cases msg with
  | requestvote vr =>
    obtain ⟨⟨t, r⟩, voted, same⟩ := ok_of_map ran
    cases same
    intro granted
    obtain ⟨term, cs, calls⟩ := recvRequestvote_granted voted granted
    have named : vr.candidateId = some source := vouched
    obtain ⟨cs', calls', lawful, written⟩ := noted.calls
    obtain rfl : cs' = cs ++ [.persistVote vr.candidateId] :=
      List.append_cancel_left (calls'.symm.trans calls)
    rw [Books.noteAll_append, named] at written
    have cell : ((b.noteAll i cs).cells i).term = t.currentTerm := by
      have kept := congrArg Pstate.term (note_vote_cell (α := α) (b.noteAll i cs) i (some source))
      rw [← noted.running.term, written]
      exact kept.symm
    rw [written, term, ← cell]
    exact List.mem_append_right _ List.mem_cons_self
  | requestvoteResponse => cases ran
  | appendentries ae =>
    obtain ⟨⟨t, r⟩, -, same⟩ := ok_of_map ran
    cases same
    trivial
  | appendentriesResponse r =>
    obtain ⟨t, -, same⟩ := ok_of_map ran
    cases same

theorem Lawful.packets {cs : List (Callback (Fin n) α)} (lawful : Lawful i b cs)
    (votes : List (Vote n)) : ∀ p ∈ packetsOf i cs, Vouched votes p := by
  induction cs generalizing b with
  | nil =>
    intro p member
    cases member
  | cons c cs ih =>
    have rest := ih lawful.2
    have here := lawful.1
    cases c with
    | sendRequestvote | sendAppendentries =>
      intro p member
      rcases List.mem_cons.mp member with rfl | later
      · exact here
      · exact rest p later
    | persistTerm | persistVote | applylog | logOffer | logPoll | logPollBatch | logPop =>
      exact rest

/-- A call of another server. -/
theorem Running.other (running : Running b i s) {j : Fin n} (other : i ≠ j)
    (cs : List (Callback (Fin n) α)) : Running (b.noteAll j cs) i s := by
  have more := b.votes_noteAll j cs
  exact
    { seated := running.seated
      plain := running.plain
      term := by rw [Books.cells_noteAll other]; exact running.term
      vote := fun v member mine here =>
        running.vote v (Books.mem_votes_noteAll (by rwa [mine]) member) mine here
      stands := fun role => more (running.stands role)
      flags := fun role nd member granted => more (running.flags role nd member granted)
      leads := fun two role => (running.leads two role).mono more }

end Acts

end Cyclone
