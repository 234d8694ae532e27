/-
# Raft.Actions — a call as a sequence of actions

Whatever a call does to a server it does in a few kinds of actions, each taken after
the checks its branch of the source makes.  `Light` lists those that leave the log's
entries and the membership alone: clocks and sends, terms and roles, votes, commits,
applications, checkpoints and compaction.  `Writes` lists those that write the log: a leader's
append, and a follower's cut or its cut and append.  `handle_does` cuts every call into
light actions with at most one write among them, whether it returns or ends the process (`Ends`
lists what a call does on its way out), so that a property of calls is a case
analysis over actions, made once.
-/
import Cyclone.Raft.Writes
import Mathlib.Logic.Relation

namespace Cyclone.Raft

open Relation

set_option autoImplicit false

variable {ι α : Type}

/-- The term a message carries. -/
def Msg.term : Msg ι α → Int
  | .requestvote rv => rv.term
  | .requestvoteResponse rvr => rvr.term
  | .appendentries ae => ae.term
  | .appendentriesResponse aer => aer.term

variable [DecidableEq ι]

set_option linter.unusedSectionVars false

/-- `s'` is `s` after a leader appended the client's entries `es` and sent them on.  The index of a
voting change is noted before the append by `raft_recv_entry_batch` and after it by
`raft_recv_entry`; `early` is the one the offers see. -/
structure Submitted (s s' : Server ι α) (es : List (MsgEntry ι α)) (early : Int)
    (s₁ s₂ : Server ι α) : Prop where
  leader : s.state = .leader
  detected : Server.detectVotingCfgChange (es.map (Server.entryOf s.currentTerm))
    (s.currentIdx + 1) s.votingCfgChangeLogIdx = some s'.votingCfgChangeLogIdx
  noted : early = s.votingCfgChangeLogIdx ∨ early = s'.votingCfgChangeLogIdx
  appended : Appended { s with votingCfgChangeLogIdx := early } s₁
    (stampFrom s.cycloneIsLeader s.prevEntry s.log.back (es.map (Server.entryOf s.currentTerm)))
  sent : Sent (fun id => s₁.node ≠ some id) s₁ s₂
  ends : s' =
    { s₂ with
      commitIdx := if s₂.nodes.length = 1 then s₂.currentIdx else s₂.commitIdx
      votingCfgChangeLogIdx := s'.votingCfgChangeLogIdx }

/-- An answer that completes the promotion of a peer without a vote: the peer has caught up, and
neither a voting change nor a checkpoint is under way. -/
def Server.Due (s : Server ι α) (source : ι) (r : MsgAppendentriesResponse) : Prop :=
  (s.currentTerm = r.term ∧ r.success = true) ∧
    (s.votingCfgChangeLogIdx = -1 ∧ s.currentIdx ≤ r.currentIdx + 1 ∧
      s.sendingCheckpoints = false) ∧
    ∃ nd ∈ s.getNode source, nd.voting = false ∧ nd.hasSufficientLog = false

/-- The entries a call may append as a leader: the client's, or the completion of the promotion of
a peer without a vote. -/
def Submits (env : Env α) (s : Server ι α) : Input ι α → List (MsgEntry ι α) → Prop
  | .recvEntry e, es => es = [e]
  | .recvEntryBatch es', es => es = es'
  | .recv source (.appendentriesResponse r), es =>
    s.Due source r ∧ es = [{ id := 1, type := .addNode source, data := env.completion }]
  | _, _ => False

/-- Which calls append. -/
theorem Submits.source {env : Env α} {s : Server ι α} {input : Input ι α} {es : List (MsgEntry ι α)}
    (submits : Submits env s input es) :
    (∃ e, input = .recvEntry e ∧ es = [e]) ∨ input = .recvEntryBatch es ∨
      ∃ source r, input = .recv source (.appendentriesResponse r) ∧ s.Due source r ∧
        es = [{ id := 1, type := .addNode source, data := env.completion }] := by
  cases input with
  | recvEntry e => exact .inl ⟨e, rfl, submits⟩
  | recvEntryBatch es' => exact .inr (.inl (congrArg _ submits.symm))
  | periodic | checkpoint => exact submits.elim
  | recv source msg =>
    cases msg with
    | requestvote | requestvoteResponse | appendentries => exact submits.elim
    | appendentriesResponse r => exact .inr (.inr ⟨source, r, rfl, submits⟩)

/-- An action that leaves the entries of the log and the membership alone. -/
inductive Light (env : Env α) : Input ι α → Server ι α → Server ι α → Prop where
  | sent {input : Input ι α} {s s' : Server ι α} {who : ι → Prop} (sent : Sent who s s') :
      Light env input s s'
  | hint {input : Input ι α} {s : Server ι α} (leader : Option ι) (elapsed : Int) :
      Light env input s { s with currentLeader := leader, timeoutElapsed := elapsed }
  | raise {source : ι} {msg : Msg ι α} {s : Server ι α} (later : s.currentTerm < msg.term) :
      Light env (.recv source msg) s (s.setCurrentTerm msg.term).becomeFollower
  | giveUp {source : ι} {ae : MsgAppendentries ι α} {s : Server ι α}
      (candidate : s.state = .candidate) (same : s.currentTerm = ae.term) :
      Light env (.recv source (.appendentries ae)) s s.becomeFollower
  | stand {msec : Int} {s : Server ι α} (below : s.state ≠ .leader)
      (voting : s.selfVoting = some true) (others : 1 < s.nodes.length) :
      Light env (.periodic msec) s (s.raftBecomeCandidate env)
  | vote {source : ι} {vr : MsgRequestvote ι} {s : Server ι α} (reached : vr.term ≤ s.currentTerm)
      (granted : s.shouldGrantVote vr = some true) (follower : s.state = .follower) :
      Light env (.recv source (.requestvote vr)) s (s.voteForNodeid vr.candidateId)
  | flag {source : ι} {r : MsgRequestvoteResponse} {s : Server ι α}
      (candidate : s.state = .candidate) (same : s.currentTerm = r.term)
      (granted : r.voteGranted = true) :
      Light env (.recv source (.requestvoteResponse r)) s (s.updNode source (·.voteForMe true))
  | win {source : ι} {r : MsgRequestvoteResponse} {s : Server ι α}
      (candidate : s.state = .candidate)
      (major : Server.votesIsMajority s.nodes.length s.nvotesForMe = true) :
      Light env (.recv source (.requestvoteResponse r)) s (s.raftBecomeLeader env)
  | alone {msec : Int} {s : Server ι α} (below : s.state ≠ .leader) (one : s.numVotingNodes = 1)
      (voting : s.selfVoting = some true) : Light env (.periodic msec) s (s.raftBecomeLeader env)
  | matched {source : ι} {r : MsgAppendentriesResponse} {s : Server ι α}
      (leader : s.state = .leader) (same : s.currentTerm = r.term) (success : r.success = true)
      (inside : r.currentIdx ≤ s.currentIdx) {nd : Node ι} (found : s.getNode source = some nd)
      (fresh : ¬ (r.currentIdx ≤ nd.matchIdx ∧ nd.matchIdx ≠ 0)) :
      Light env (.recv source (.appendentriesResponse r)) s
        (s.updNode source fun nd =>
          (nd.setNextIdx (max (r.currentIdx + 1) nd.nextIdx)).setMatchIdx r.currentIdx)
  | sufficient {source : ι} {r : MsgAppendentriesResponse} {s : Server ι α} :
      Light env (.recv source (.appendentriesResponse r)) s
        (s.updNode source fun nd => { nd with hasSufficientLog := true })
  | advance {source : ι} {r : MsgAppendentriesResponse} {s s' : Server ι α}
      (advanced : s.advanceCommit r.currentIdx = .ok s') :
      Light env (.recv source (.appendentriesResponse r)) s s'
  | follow {source : ι} {ae : MsgAppendentries ι α} {s s' : Server ι α}
      (same : s.currentTerm = ae.term) (followed : s.followCommit ae = .ok s') :
      Light env (.recv source (.appendentries ae)) s s'
  | apply {input : Input ι α} {s s' : Server ι α} {ety : Entry ι α} (next : AppliedNext s s' ety) :
      Light env input s s'
  | checkpoint {logIndex : Int} {s : Server ι α} :
      Light env (.checkpoint logIndex) s (s.raftCheckpoint logIndex)
  | compact {msec : Int} {s : Server ι α} : Light env (.periodic msec) s s.compactLog

/-- An action that writes the log. -/
inductive Writes (env : Env α) : Input ι α → Server ι α → Server ι α → Prop where
  | submit {input : Input ι α} {s s' s₁ s₂ : Server ι α} {es : List (MsgEntry ι α)} {early : Int}
      (submits : Submits env s input es) (submitted : Submitted s s' es early s₁ s₂) :
      Writes env input s s'
  | cut {source : ι} {ae : MsgAppendentries ι α} {s : Server ι α} (same : s.currentTerm = ae.term)
      (pos : 0 < ae.prevLogIdx) {e : Entry ι α} (found : s.entryFromIdx ae.prevLogIdx = some e)
      (differ : e.term ≠ ae.prevLogTerm) (above : s.commitIdx < ae.prevLogIdx) :
      Writes env (.recv source (.appendentries ae)) s (s.truncate ae.prevLogIdx)
  | take {source : ι} {ae : MsgAppendentries ι α} {s : Server ι α} (same : s.currentTerm = ae.term)
      (follows : s.state ≠ .candidate)
      (agrees : s.HoldsPrev ae)
      {i : Nat} {cut : Option Int} (scan : Scan s ae i cut) :
      Writes env (.recv source (.appendentries ae)) s (s.taken ae i cut)

/-- A peer's place in the configuration, and whether its log was found sufficient. -/
def Node.seat (nd : Node ι) : ι × Bool × Bool := (nd.id, nd.voting, nd.hasSufficientLog)

/-- What a call has done when it comes to write the log: a message may have brought a term
and a role, and an answer moved its peer's cursors. -/
structure Opens (input : Input ι α) (s t : Server ι α) : Prop where
  quiet : Quiet s t
  seats : t.nodes.map Node.seat = s.nodes.map Node.seat
  sending : t.sendingCheckpoints = s.sendingCheckpoints
  term : s.currentTerm ≤ t.currentTerm
  role : (∀ source ae, input ≠ .recv source (.appendentries ae)) →
    t.currentTerm = s.currentTerm ∧ t.state = s.state

/-- The course of a call: it writes the log at most once. -/
inductive Course (env : Env α) (input : Input ι α) (s s' : Server ι α) : Prop where
  | plays (light : ReflTransGen (Light env input) s s') : Course env input s s'
  | writes {t u : Server ι α} (opens : Opens input s t)
      (before : ReflTransGen (Light env input) s t) (write : Writes env input t u)
      (after : ReflTransGen (Light env input) u s') : Course env input s s'

/-- What a call does on its way out of the process: nothing more, the application of an entry that
removes this server, or an append that leaves no node. -/
inductive Ends (env : Env α) (input : Input ι α) (s : Server ι α) : Fault ι α → Prop where
  | here (cause : Cause) : Ends env input s ⟨cause, s⟩
  | removed {ety : Entry ι α} (found : s.entryFromIdx (s.lastAppliedIdx + 1) = some ety)
      (removes : ety.type = .removeNode s.me) :
      Ends env input s ⟨.exit, { s with
        lastAppliedIdx := s.lastAppliedIdx + 1
        calls := s.calls ++ [.applylog ety s.lastAppliedIdx] }⟩
  | emptied {s₁ : Server ι α} {es : List (MsgEntry ι α)} {early : Int}
      (submits : Submits env s input es)
      (appended : Appended { s with votingCfgChangeLogIdx := early } s₁
        (stampFrom s.cycloneIsLeader s.prevEntry s.log.back (es.map (Server.entryOf s.currentTerm))))
      (none_ : s₁.nodes = []) : Ends env input s ⟨.undefined, s₁⟩

/-- A call that did `R` when it returned, or before it ended the process. -/
inductive Ending (R : Server ι α → Server ι α → Prop) (env : Env α) (input : Input ι α)
    (s : Server ι α) : Except (Fault ι α) (Server ι α) → Prop where
  | returns {s' : Server ι α} (did : R s s') : Ending R env input s (.ok s')
  | ends {t : Server ι α} {f : Fault ι α} (did : R s t) (out : Ends env input t f) :
      Ending R env input s (.error f)

/-- A part of a call that leaves the log alone, and how it ends. -/
def Plays (env : Env α) (input : Input ι α) :
    Server ι α → Except (Fault ι α) (Server ι α) → Prop :=
  Ending (ReflTransGen (Light env input)) env input

/-- A whole call, and how it ends. -/
def Does (env : Env α) (input : Input ι α) :
    Server ι α → Except (Fault ι α) (Server ι α) → Prop :=
  Ending (Course env input) env input

theorem Ending.imp {R R' : Server ι α → Server ι α → Prop} {env : Env α} {input : Input ι α}
    {s s' : Server ι α} {r : Except (Fault ι α) (Server ι α)} (ending : Ending R env input s' r)
    (did : ∀ t, R s' t → R' s t) : Ending R' env input s r := by
  cases ending with
  | returns done => exact .returns (did _ done)
  | ends done out => exact .ends (did _ done) out

namespace Opens

variable {input : Input ι α} {s t u : Server ι α}

theorem refl (input : Input ι α) (s : Server ι α) : Opens input s s :=
  ⟨.refl s, rfl, rfl, le_refl _, fun _ => ⟨rfl, rfl⟩⟩

theorem trans (first : Opens input s t) (second : Opens input t u) : Opens input s u := by
  refine ⟨first.quiet.trans second.quiet, second.seats.trans first.seats,
    second.sending.trans first.sending, first.term.trans second.term, fun local_ => ?_⟩
  obtain ⟨term, state⟩ := first.role local_
  obtain ⟨term', state'⟩ := second.role local_
  exact ⟨term'.trans term, state'.trans state⟩

theorem entryFromIdx (opens : Opens input s t) (idx : Int) :
    t.entryFromIdx idx = s.entryFromIdx idx := by
  rw [Server.entryFromIdx, opens.quiet.log]
  rfl

/-- A promotion that is due when the log is written was due when the answer came. -/
theorem due {source : ι} {r : MsgAppendentriesResponse}
    (opens : Opens (.recv source (.appendentriesResponse r) : Input ι α) s t)
    (due : t.Due source r) : s.Due source r := by
  obtain ⟨⟨same, success⟩, ⟨open_, close, idle⟩, nd, found, silent⟩ := due
  obtain ⟨term, -⟩ := opens.role fun _ _ same => by cases same
  refine ⟨⟨term ▸ same, success⟩, ⟨?_, ?_, opens.sending ▸ idle⟩, ?_⟩
  · rwa [opens.quiet.votingCfgChangeLogIdx] at open_
  · rwa [Server.currentIdx, opens.quiet.log] at close
  · have seat : ∀ id, (t.getNode id).map Node.seat = (s.getNode id).map Node.seat := by
      intro id
      have find : ∀ l : List (Node ι), (l.find? (·.id = id)).map Node.seat =
          (l.map Node.seat).find? (·.1 = id) := fun l => by rw [List.find?_map]; rfl
      rw [Server.getNode, Server.getNode, find, find, opens.seats]
    have here := seat source
    rw [found] at here
    obtain ⟨nd', found', same'⟩ := Option.map_eq_some_iff.mp here.symm
    simp only [Node.seat, Prod.mk.injEq] at same'
    exact ⟨nd', found', same'.2.1.trans silent.1, same'.2.2.trans silent.2⟩

end Opens

namespace Course

variable {env : Env α} {input : Input ι α} {s t u : Server ι α}

theorem prepend (opens : Opens input s t) (before : ReflTransGen (Light env input) s t)
    (course : Course env input t u) : Course env input s u := by
  cases course with
  | plays light => exact .plays (before.trans light)
  | writes opens' before' write after =>
    exact .writes (opens.trans opens') (before.trans before') write after

theorem append (course : Course env input s t) (after : ReflTransGen (Light env input) t u) :
    Course env input s u := by
  cases course with
  | plays light => exact .plays (light.trans after)
  | writes opens before write after' => exact .writes opens before write (after'.trans after)

variable {I : Server ι α → Prop}

/-- What light actions keep, a sequence of them keeps. -/
theorem lights (light : ∀ v w, I v → Light env input v w → I w)
    (acts : ReflTransGen (Light env input) s t) (start : I s) : I t := by
  induction acts with
  | refl => exact start
  | tail _ act ih => exact light _ _ ih act

/-- What light actions and writes keep, a call keeps. -/
theorem keeps (course : Course env input s t) (light : ∀ v w, I v → Light env input v w → I w)
    (write : ∀ v w, I v → Opens input s v → Writes env input v w → I w) (start : I s) : I t := by
  cases course with
  | plays acts => exact lights light acts start
  | writes opens before written after =>
    exact lights light after (write _ _ (lights light before start) opens written)

end Course

namespace Plays

variable {env : Env α} {input : Input ι α} {s s' : Server ι α}
  {r : Except (Fault ι α) (Server ι α)}

theorem refl (env : Env α) (input : Input ι α) (s : Server ι α) : Plays env input s (.ok s) :=
  .returns .refl

theorem stop (env : Env α) (input : Input ι α) (s : Server ι α) (cause : Cause) :
    Plays env input s (.error ⟨cause, s⟩) :=
  .ends .refl (.here cause)

theorem single (act : Light env input s s') : Plays env input s (.ok s') :=
  .returns (.single act)

theorem prepend (first : ReflTransGen (Light env input) s s') (rest : Plays env input s' r) :
    Plays env input s r :=
  rest.imp fun _ light => first.trans light

theorem cons (first : Light env input s s') (rest : Plays env input s' r) : Plays env input s r :=
  prepend (.single first) rest

theorem light (plays : Plays env input s (.ok s')) : ReflTransGen (Light env input) s s' := by
  cases plays with
  | returns light => exact light

variable {β : Type} {x : Except (Fault ι α) β} {g : β → Server ι α}

/-- A part that failed is the end of the call. -/
theorem fails {f : Fault ι α} (plays : Plays env input s (x.map g)) (failed : x = .error f) :
    Plays env input s (.error f) := by
  rw [failed] at plays
  exact plays

/-- A part that returned, and the rest of the call. -/
theorem passes {b : β} (plays : Plays env input s (x.map g)) (passed : x = .ok b)
    (rest : Plays env input (g b) r) : Plays env input s r := by
  rw [passed] at plays
  exact prepend plays.light rest

end Plays

namespace Does

variable {env : Env α} {input : Input ι α} {s s' : Server ι α}
  {r : Except (Fault ι α) (Server ι α)}

theorem of_plays (plays : Plays env input s r) : Does env input s r :=
  plays.imp fun _ light => .plays light

theorem prepend (opens : Opens input s s') (first : ReflTransGen (Light env input) s s')
    (rest : Does env input s' r) : Does env input s r :=
  rest.imp fun _ course => .prepend opens first course

/-- The write of a call, and the rest of it. -/
theorem write (write : Writes env input s s') (rest : Plays env input s' r) :
    Does env input s r :=
  rest.imp fun _ light => .writes (.refl input s) .refl write light

theorem append (first : Course env input s s') (rest : Plays env input s' r) :
    Does env input s r :=
  rest.imp fun _ light => first.append light

theorem course (does : Does env input s (.ok s')) : Course env input s s' := by
  cases does with
  | returns course => exact course

theorem of_map {β γ : Type} {x : Except (Fault ι α) β} {f : β → γ} {g : γ → Server ι α}
    {k : β → Server ι α} (does : Does env input s (x.map k)) (same : ∀ b, g (f b) = k b) :
    Does env input s ((x.map f).map g) := by
  cases x with
  | error f => exact does
  | ok b =>
    change Does env input s (.ok (g (f b)))
    rw [same]
    exact does

end Does

/-! ## Applying -/

section Calls

variable (env : Env α) (input : Input ι α) (s : Server ι α)

theorem applyCommitted_plays : Plays env input s ((s.applyCommitted env).map (·.1)) := by
  have next : ∀ t t' ety, ReflTransGen (Light env input) s t → AppliedNext t t' ety →
      ReflTransGen (Light env input) s t' := fun _ _ _ acts one => acts.tail (.apply one)
  cases ran : s.applyCommitted env with
  | ok p => exact .returns (applyCommitted_keeps next .refl ran)
  | error f =>
    obtain ⟨t, ety, acts, found, removes, rfl⟩ := applyLoop_error next _ .refl ran
    exact .ends acts (.removed found removes)

/-! ## `raft_periodic` -/

theorem periodicTick_plays (msec : Int) :
    Plays env (.periodic msec) s (s.periodicTick env msec) := by
  have clock : Light env (.periodic msec) s { s with timeoutElapsed := s.timeoutElapsed + msec } :=
    .hint s.currentLeader (s.timeoutElapsed + msec)
  have plays : ∀ t, Server.Ticks env { s with timeoutElapsed := s.timeoutElapsed + msec } t →
      ReflTransGen (Light env (.periodic msec)) s t := by
    rintro t (rfl | ⟨below, one, voting, rfl⟩)
    · exact .single clock
    · exact (ReflTransGen.single clock).tail (.alone below one voting)
  refine periodicTick_rule env rfl (fun t ticks _ => ?_) (fun t ticks _ => ?_)
    (fun t ticks below voting others => ?_) (fun t ticks _ => ?_)
  · exact .ends (plays t ticks) (.here .undefined)
  · exact .returns ((plays t ticks).tail (.sent (sent_leaderTick env t msec)))
  · exact .returns ((plays t ticks).tail (.stand below voting others))
  · exact .returns (plays t ticks)

theorem periodic_plays (msec : Int) : Plays env (.periodic msec) s (s.raftPeriodic env msec) := by
  have tick := periodicTick_plays env s msec
  unfold Server.raftPeriodic
  cases ticked : s.periodicTick env msec with
  | error f => rwa [ticked] at tick
  | ok t =>
    rw [ticked] at tick
    refine .prepend tick.light ?_
    have applies := applyCommitted_plays env (.periodic msec) t
    simp only
    cases ran : t.applyCommitted env with
    | error f => exact applies.fails ran
    | ok p =>
      obtain ⟨t', done⟩ := p
      cases done with
      | true => exact applies.passes ran (.single .compact)
      | false => exact applies.passes ran (.refl env _ t')

/-! ## Client entries -/

/-- The end of both entry points: the commit index of a server that is its own quorum. -/
theorem lone_commit (t : Server ι α) :
    (if t.nodes.length = 1 then { t with commitIdx := t.currentIdx } else t) =
      { t with commitIdx := if t.nodes.length = 1 then t.currentIdx else t.commitIdx } := by
  split <;> rfl

theorem recvEntry_does (e : MsgEntry ι α) :
    Does env (.recvEntry e) s ((s.raftRecvEntry env e).map (·.1)) := by
  have submits : Submits env s (.recvEntry e) [e] := rfl
  unfold Server.raftRecvEntry
  simp only
  split
  · exact .of_plays (.refl env _ s)
  · rename_i open_
    split
    · exact .of_plays (.refl env _ s)
    · rename_i leader
      have appended : Appended { s with votingCfgChangeLogIdx := s.votingCfgChangeLogIdx } _ _ :=
        raftAppendEntry_spec s (Server.entryOf s.currentTerm e)
      generalize s.raftAppendEntry (Server.entryOf s.currentTerm e) = s₁ at appended
      split
      · rename_i none_
        exact .of_plays (.ends .refl (.emptied submits appended none_))
      · have sent := sent_sendRound env s₁
        have back : s₁.currentIdx = s.currentIdx + 1 := by
          have grown := appended.grown.back_eq
          simp only [stampFrom_length, List.length_singleton] at grown
          exact grown
        generalize s₁.sendRound env = s₂ at sent
        have current : s₂.currentIdx = s.currentIdx + 1 := by
          rw [Server.currentIdx, sent.log]
          exact back
        have pending : s₂.votingCfgChangeLogIdx = s.votingCfgChangeLogIdx := by
          rw [sent.core, appended.core, applyCfg_core]
        have detect : Server.detectVotingCfgChange [Server.entryOf s.currentTerm e]
            (s.currentIdx + 1) s.votingCfgChangeLogIdx =
            some (if (Server.entryOf s.currentTerm e).isVotingCfgChange then s.currentIdx + 1
              else s.votingCfgChangeLogIdx) := by
          simp only [Server.detectVotingCfgChange]
          split
          · rename_i change
            rw [if_neg fun pending => open_ ⟨change, pending⟩]
          · rfl
        have submitted : ∀ s' : Server ι α,
            s' =
              { s₂ with
                commitIdx := if s₂.nodes.length = 1 then s₂.currentIdx else s₂.commitIdx
                votingCfgChangeLogIdx :=
                  if (Server.entryOf s.currentTerm e).isVotingCfgChange then s.currentIdx + 1
                  else s.votingCfgChangeLogIdx } →
            Writes env (.recvEntry e) s s' := by
          intro s' same
          have voting := congrArg Server.votingCfgChangeLogIdx same
          refine .submit submits ⟨not_not.mp leader, detect.trans (congrArg some voting.symm),
            Or.inl rfl, appended, sent, ?_⟩
          rw [voting]
          exact same
        rw [lone_commit]
        refine .write (submitted _ ?_) (.refl env _ _)
        split
        · rw [← current]
          rfl
        · rw [← pending]

theorem recvEntryBatch_does {es : List (MsgEntry ι α)} (submits : Submits env s input es) :
    Does env input s ((s.raftRecvEntryBatch env es).map (·.1)) := by
  unfold Server.raftRecvEntryBatch
  split
  · exact .of_plays (.refl env _ s)
  · rename_i leader
    simp only
    split
    · exact .of_plays (.refl env _ s)
    · rename_i detected detect
      have appended := raftAppendEntryBatch_spec { s with votingCfgChangeLogIdx := detected }
        (es.map (Server.entryOf s.currentTerm))
      generalize Server.raftAppendEntryBatch { s with votingCfgChangeLogIdx := detected }
        (es.map (Server.entryOf s.currentTerm)) = s₁ at appended
      split
      · rename_i none_
        exact .of_plays (.ends .refl (.emptied submits appended none_))
      · have sent := sent_sendRound env s₁
        generalize s₁.sendRound env = s₂ at sent
        have pending : s₂.votingCfgChangeLogIdx = detected := by
          rw [sent.core, appended.core, applyCfg_core]
        have submitted : Writes env input s
            { s₂ with commitIdx := if s₂.nodes.length = 1 then s₂.currentIdx else s₂.commitIdx } := by
          refine .submit submits
            ⟨not_not.mp leader, ?_, Or.inr pending.symm, appended, sent, rfl⟩
          rw [detect]
          exact congrArg some pending.symm
        rw [lone_commit]
        exact .write submitted (.refl env _ _)

/-! ## `raft_recv_appendentries` -/

section Receive

variable {s} {ae : MsgAppendentries ι α} (source : ι)

/-- A server that takes over a message's term follows in it. -/
theorem adopted_follows (current : s.currentTerm ≤ ae.term) :
    (s.adopted ae).currentTerm = ae.term ∧ (s.adopted ae).state ≠ .candidate := by
  have term : (s.heard ae).currentTerm = s.currentTerm := by rw [heard_core]
  have state : (s.heard ae).state = s.state := by rw [heard_core]
  unfold Server.adopted
  split
  · rename_i later
    rw [setCurrentTerm_of_lt (by omega)]
    exact ⟨rfl, Role.noConfusion⟩
  · have same : s.currentTerm = ae.term := by omega
    split
    · exact ⟨term.trans same, Role.noConfusion⟩
    · rename_i other
      exact ⟨term.trans same, by rwa [state]⟩

theorem adopted_light (current : s.currentTerm ≤ ae.term) :
    ReflTransGen (Light env (.recv source (.appendentries ae))) s (s.adopted ae) := by
  have term : (s.heard ae).currentTerm = s.currentTerm := by rw [heard_core]
  have state : (s.heard ae).state = s.state := by rw [heard_core]
  have heard : ReflTransGen (Light env (.recv source (.appendentries ae))) s (s.heard ae) :=
    .single (.sent (sent_heard (fun _ => True) s ae))
  unfold Server.adopted
  split
  · rename_i later
    have raise : Light env (.recv source (.appendentries ae)) (s.heard ae)
        ((s.heard ae).setCurrentTerm (Msg.appendentries ae).term).becomeFollower :=
      .raise (by rw [term]; exact later)
    exact heard.tail raise
  · split
    · rename_i candidate
      exact heard.tail (.giveUp (state.trans candidate) (by omega))
    · exact heard

theorem adopted_opens (current : s.currentTerm ≤ ae.term) :
    Opens (.recv source (.appendentries ae)) s (s.adopted ae) := by
  have frame : (s.adopted ae).nodes = s.nodes ∧
      (s.adopted ae).sendingCheckpoints = s.sendingCheckpoints := by
    unfold Server.adopted Server.setCurrentTerm
    rw [heard_core]
    split
    · exact ⟨rfl, rfl⟩
    · split <;> exact ⟨rfl, rfl⟩
  refine ⟨quiet_adopted s ae, by rw [frame.1], frame.2, ?_, fun local_ => absurd rfl (local_ source ae)⟩
  rw [(adopted_follows current).1]
  exact current

theorem AeOutcome.does {r : Except (Fault ι α) (Server ι α × MsgAppendentriesResponse)}
    (outcome : AeOutcome s source ae r) :
    Does env (.recv source (.appendentries ae)) s (r.map (·.1)) := by
  have heard : Light env (.recv source (.appendentries ae)) s (s.heard ae) :=
    .sent (sent_heard (fun _ => True) s ae)
  have quiet := quiet_adopted s ae
  have entries : ∀ k, (s.adopted ae).entryFromIdx k = s.entryFromIdx k := fun k => by
    rw [Server.entryFromIdx, quiet.log]
    rfl
  cases outcome with
  | exits behind => exact .of_plays (.cons heard (.stop env _ _ .exit))
  | stale older => exact .of_plays (.single heard)
  | unvoting later silent =>
    exact .of_plays
      (.prepend (adopted_light env source (le_of_lt later)) (.stop env _ _ .undefined))
  | missing current pos absent => exact .of_plays (.returns (adopted_light env source current))
  | conflict present current pos e found differ above =>
    refine .prepend (adopted_opens source current) (adopted_light env source current)
      (.write ?_ (.refl env _ _))
    exact .cut (adopted_follows current).1 pos ((entries _).trans found) differ
      (by rw [quiet.commitIdx]; exact above)
  | conflictFault present current pos e found differ below =>
    exact .of_plays (.prepend (adopted_light env source current) (.stop env _ _ (.assertion 463)))
  | checked present current agrees outcome =>
    refine .prepend (adopted_opens source current) (adopted_light env source current) ?_
    obtain ⟨same, follows⟩ := adopted_follows current
    have take : ∀ {i cut}, Scan (s.adopted ae) ae i cut →
        Writes env (.recv source (.appendentries ae)) (s.adopted ae)
          ((s.adopted ae).taken ae i cut) := by
      intro i cut scan
      refine .take same follows (fun pos base => ?_) scan
      obtain ⟨e, found, term⟩ := agrees pos (by rwa [quiet.logBase] at base)
      exact ⟨e, (entries _).trans found, term⟩
    cases outcome with
    | accept i cut scan s' committed =>
      have same' : ((s.adopted ae).taken ae i cut).currentTerm = ae.term := by
        obtain ⟨s₁, appended, written⟩ :=
          acceptEntries_spec ((s.adopted ae).cutAt cut) scan.short
        rw [Server.taken, written, appended.core, applyCfg_core]
        cases cut <;> exact same
      exact .write (take scan) (.cons (.follow same' committed)
        (.single (.hint _ s'.timeoutElapsed)))
    | commitFault i cut scan f ended =>
      obtain ⟨cause, t⟩ := f
      have stopped : t = (s.adopted ae).taken ae i cut := followCommit_error ended
      rw [stopped]
      exact .write (take scan) (.stop env _ _ cause)
    | emptyFault => exact .of_plays (.stop env _ _ (.assertion 480))
    | scanFault => exact .of_plays (.stop env _ _ (.assertion 498))

theorem recvAppendentries_does (s : Server ι α) (ae : MsgAppendentries ι α) :
    Does env (.recv source (.appendentries ae)) s
      ((s.raftRecvAppendentries source ae).map (·.1)) :=
  (raftRecvAppendentries_spec s source ae).does env source

end Receive

/-! ## `raft_recv_appendentries_response` -/

section Acknowledge

variable (source : ι) (r : MsgAppendentriesResponse)

variable {nd : Node ι}

theorem promote_does (found : ∃ nd' ∈ s.getNode source, nd'.seat = nd.seat)
    (same : nd.id = source) (term : s.currentTerm = r.term) (success : r.success = true) :
    Does env (.recv source (.appendentriesResponse r)) s (s.promote env nd r.currentIdx) := by
  unfold Server.promote
  split
  · rename_i ready
    obtain ⟨silent, open_, close, unmarked⟩ := ready
    unfold Server.raftHasSufficientLogs
    by_cases sending : s.sendingCheckpoints = true
    · rw [if_pos sending, same]
      exact .of_plays (.single .sufficient)
    · rw [if_neg sending]
      obtain ⟨nd', found, seat⟩ := found
      simp only [Node.seat, Prod.mk.injEq] at seat
      have submits : Submits env s (.recv source (.appendentriesResponse r))
          [{ id := 1, type := .addNode nd.id, data := env.completion }] :=
        ⟨⟨⟨term, success⟩, ⟨open_, close, by simpa using sending⟩, nd', found,
          seat.2.1.trans silent, seat.2.2.trans unmarked⟩, by rw [same]⟩
      have batch := recvEntryBatch_does env _ s submits
      cases ran : s.raftRecvEntryBatch env
          [{ id := 1, type := .addNode nd.id, data := env.completion }] with
      | error f => rwa [ran] at batch
      | ok p => rwa [ran] at batch
  · exact .of_plays (.refl env _ s)

theorem ackReceived_does (found : s.getNode source = some nd) (leader : s.state = .leader)
    (term : s.currentTerm = r.term) (success : r.success = true)
    (fresh : ¬ (r.currentIdx ≤ nd.matchIdx ∧ nd.matchIdx ≠ 0)) :
    Does env (.recv source (.appendentriesResponse r)) s (s.ackReceived env nd r.currentIdx) := by
  obtain ⟨member, same⟩ := mem_of_getNode found
  unfold Server.ackReceived
  split
  · exact .of_plays (.stop env _ s (.assertion 332))
  · rename_i inside
    let f : Node ι → Node ι := fun nd =>
      (nd.setNextIdx (max (r.currentIdx + 1) nd.nextIdx)).setMatchIdx r.currentIdx
    have matched : Light env (.recv source (.appendentriesResponse r)) s (s.updNode source f) :=
      .matched leader term success (by omega) found fresh
    have opens : Opens (.recv source (.appendentriesResponse r)) s (s.updNode source f) :=
      ⟨⟨rfl, rfl, rfl, rfl, rfl, rfl, rfl, rfl, rfl, map_updNode (f := f) (fun _ => rfl) source, [],
          by simp [Server.updNode], by simp⟩,
        map_updNode (f := f) (fun _ => rfl) source, rfl, le_refl _, fun _ => ⟨rfl, rfl⟩⟩
    refine .prepend opens (.single matched) ?_
    rw [same]
    have seat : ∃ nd' ∈ (s.updNode source f).getNode source, nd'.seat = nd.seat :=
      ⟨f nd, getNode_updNode (f := f) (fun _ => rfl) found, rfl⟩
    have term₁ : (s.updNode source f).currentTerm = r.term := term
    simp only
    generalize s.updNode source f = s₁ at seat term₁ ⊢
    have promotes := promote_does env s₁ source r seat same term₁ success
    cases promoted : s₁.promote env nd r.currentIdx with
    | error f => rwa [promoted] at promotes
    | ok s₂ =>
      rw [promoted] at promotes
      refine .append promotes.course ?_
      simp only
      cases advanced : s₂.advanceCommit r.currentIdx with
      | error f =>
        obtain ⟨cause, t⟩ := f
        have stopped : t = s₂ := advanceCommit_error advanced
        rw [stopped]
        exact .stop env _ s₂ cause
      | ok s₃ =>
        refine .cons (.advance advanced) ?_
        have sent : Sent (fun _ => True) s₃
            (if ((s₃.getNode source).bind fun nd => s₃.entryFromIdx nd.nextIdx).isSome = true
              then s₃.raftSendAppendentries env source else s₃) := by
          split
          · exact sent_raftSendAppendentries env _ s₃ source trivial
          · exact .refl _ s₃
        refine .cons (.sent sent) ?_
        simp only
        generalize (if ((s₃.getNode source).bind fun nd => s₃.entryFromIdx nd.nextIdx).isSome = true
          then s₃.raftSendAppendentries env source else s₃) = s₄
        have applies := applyCommitted_plays env (.recv source (.appendentriesResponse r)) s₄
        cases ran : s₄.applyCommitted env with
        | error f => exact applies.fails ran
        | ok p => exact applies.passes ran (.refl env _ p.1)

theorem recvAppendentriesResponse_does :
    Does env (.recv source (.appendentriesResponse r)) s
      (s.raftRecvAppendentriesResponse env source r) := by
  unfold Server.raftRecvAppendentriesResponse
  cases found : s.getNode source with
  | none => exact .of_plays (.refl env _ s)
  | some nd =>
    obtain ⟨-, same⟩ := mem_of_getNode found
    simp only
    split
    · exact .of_plays (.refl env _ s)
    · rename_i fresh
      split
      · exact .of_plays (.refl env _ s)
      · rename_i leader
        have leader := not_not.mp leader
        split
        · rename_i later
          have raise : Light env (.recv source (.appendentriesResponse r)) s
              (s.setCurrentTerm (Msg.appendentriesResponse r : Msg ι α).term).becomeFollower :=
            .raise later
          exact .of_plays (.single raise)
        · split
          · exact .of_plays (.refl env _ s)
          · rename_i term
            have term := not_not.mp term
            split
            · rename_i refused
              have noted := sent_updNode (f := (·.setNextIdx (min (r.currentIdx + 1) s.currentIdx)))
                (fun _ => rfl) (fun _ => True) s nd.id
              refine .of_plays (.cons (.sent noted) ?_)
              split
              · exact .single (.sent (sent_raftSendAppendentries env (fun _ => True) _ nd.id trivial))
              · exact .stop env _ _ (.assertion 326)
            · rename_i success
              exact ackReceived_does env s source r found leader term
                (by simpa using success) fresh

end Acknowledge

/-! ## Votes -/

theorem recvRequestvote_plays (source : ι) (vr : MsgRequestvote ι) :
    Plays env (.recv source (.requestvote vr)) s ((s.raftRecvRequestvote vr).map (·.1)) := by
  have raised : ReflTransGen (Light env (.recv source (.requestvote vr))) s
      (if s.currentTerm < vr.term then (s.setCurrentTerm vr.term).becomeFollower else s) := by
    split
    · rename_i later
      have raise : Light env (.recv source (.requestvote vr)) s
          (s.setCurrentTerm (Msg.requestvote vr : Msg ι α).term).becomeFollower := .raise later
      exact .single raise
    · exact .refl
  have reached : vr.term ≤ (if s.currentTerm < vr.term then
      (s.setCurrentTerm vr.term).becomeFollower else s).currentTerm := by
    split
    · rename_i later
      rw [setCurrentTerm_of_lt later]
      exact le_refl _
    · omega
  unfold Server.raftRecvRequestvote
  simp only
  generalize (if s.currentTerm < vr.term then
    (s.setCurrentTerm vr.term).becomeFollower else s) = t at raised reached
  refine .prepend raised ?_
  cases granted : t.shouldGrantVote vr with
  | none => exact .stop env _ t .undefined
  | some verdict =>
    cases verdict with
    | false => exact .refl env _ t
    | true =>
      simp only
      split
      · exact .stop env _ t (.assertion 610)
      · rename_i role
        have follower : t.state = .follower := by
          cases state : t.state with
          | follower => rfl
          | candidate => exact absurd (Or.inr state) role
          | leader => exact absurd (Or.inl state) role
        exact .cons (.vote reached granted follower) (.single (.hint none 0))

theorem recvRequestvoteResponse_plays (source : ι) (r : MsgRequestvoteResponse) :
    Plays env (.recv source (.requestvoteResponse r)) s
      (.ok (s.raftRecvRequestvoteResponse env source r)) := by
  unfold Server.raftRecvRequestvoteResponse
  split
  · exact .refl env _ s
  · rename_i candidate
    have candidate := not_not.mp candidate
    split
    · rename_i later
      have raise : Light env (.recv source (.requestvoteResponse r)) s
          (s.setCurrentTerm (Msg.requestvoteResponse r : Msg ι α).term).becomeFollower := .raise later
      exact .single raise
    · split
      · exact .refl env _ s
      · rename_i same
        split
        · rename_i granted
          refine .cons (.flag candidate (not_not.mp same) granted) ?_
          simp only
          split
          · rename_i major
            exact .single (.win candidate major)
          · exact .refl env _ _
        · exact .refl env _ s

/-- **Every call is a course of actions.** -/
theorem handle_does : Does env input s ((s.handle env input).map (·.1)) := by
  have whole : ∀ {x : Except (Fault ι α) (Server ι α)}, Does env input s x →
      Does env input s (x.map id) := fun does => by rwa [Except.map_id]
  cases input with
  | periodic msec => exact (whole (.of_plays (periodic_plays env s msec))).of_map fun _ => rfl
  | recvEntry e => exact (recvEntry_does env s e).of_map fun _ => rfl
  | recvEntryBatch es =>
    have submits : Submits env s (.recvEntryBatch es) es := rfl
    exact (recvEntryBatch_does env _ s submits).of_map fun _ => rfl
  | checkpoint logIndex => exact .of_plays (.single .checkpoint)
  | recv source msg =>
    cases msg with
    | requestvote vr =>
      exact (Does.of_plays (recvRequestvote_plays env s source vr)).of_map fun _ => rfl
    | requestvoteResponse rvr => exact .of_plays (recvRequestvoteResponse_plays env s source rvr)
    | appendentries ae => exact (recvAppendentries_does env source s ae).of_map fun _ => rfl
    | appendentriesResponse aer =>
      exact (whole (recvAppendentriesResponse_does env s source aer)).of_map fun _ => rfl

/-- A step of the server is the course of its call. -/
theorem step_course {s s' : Server ι α} {l : Env α × Input ι α} (taken : s.step l = some s') :
    Course l.1 l.2 s s' := by
  have does := handle_does l.1 l.2 s
  unfold Server.step at taken
  split at taken
  · rename_i p ran
    cases taken
    rw [ran] at does
    exact does.course
  · cases taken

end Calls

/-! ## What light actions leave alone -/

/-- `t` has the entries, the members and the pending change of `s`, applied and released nothing,
and only sent or persisted. -/
structure Calm (s t : Server ι α) : Prop where
  entries : t.log.entries = s.log.entries
  back : t.log.back = s.log.back
  front : t.log.front = s.log.front
  members : t.nodes.map Node.member = s.nodes.map Node.member
  lastAppliedIdx : t.lastAppliedIdx = s.lastAppliedIdx
  votingCfgChangeLogIdx : t.votingCfgChangeLogIdx = s.votingCfgChangeLogIdx
  calls : ∃ cs, t.calls = s.calls ++ cs ∧ ∀ c ∈ cs, c.outward

section Frames

variable {env : Env α} {input : Input ι α} {s t : Server ι α}

theorem Quiet.calm (quiet : Quiet s t) : Calm s t :=
  ⟨by rw [quiet.log], by rw [quiet.log], by rw [quiet.log], quiet.members, quiet.lastAppliedIdx,
    quiet.votingCfgChangeLogIdx, quiet.calls⟩

/-- Nothing of the log, the members or the calls is touched. -/
theorem calm_of_same (log : t.log = s.log)
    (members : t.nodes.map Node.member = s.nodes.map Node.member)
    (applied : t.lastAppliedIdx = s.lastAppliedIdx)
    (voting : t.votingCfgChangeLogIdx = s.votingCfgChangeLogIdx) (calls : t.calls = s.calls) :
    Calm s t :=
  ⟨by rw [log], by rw [log], by rw [log], members, applied, voting, [], by rw [calls]; simp, by simp⟩

theorem Commits.calm (commits : Commits s t) : Calm s t := by
  rw [commits.core]
  exact calm_of_same rfl rfl rfl rfl rfl

/-- A light action applies the next entry, compacts the log in a `raft_periodic`, or leaves log,
members and pending change alone. -/
theorem Light.kinds (act : Light env input s t) :
    Calm s t ∨ (∃ ety, AppliedNext s t ety) ∨
      (∃ msec, input = .periodic msec) ∧ t = s.compactLog := by
  cases act with
  | apply next => exact Or.inr (Or.inl ⟨_, next⟩)
  | compact => exact Or.inr (Or.inr ⟨⟨_, rfl⟩, rfl⟩)
  | sent sent => exact Or.inl sent.quiet.calm
  | hint | checkpoint => exact Or.inl (calm_of_same rfl rfl rfl rfl rfl)
  | vote =>
    refine Or.inl ⟨rfl, rfl, rfl, rfl, rfl, rfl, _, rfl, ?_⟩
    simp [Callback.outward]
  | raise => exact Or.inl ((quiet_setCurrentTerm s _).trans (quiet_becomeFollower _)).calm
  | giveUp => exact Or.inl (quiet_becomeFollower s).calm
  | stand => exact Or.inl (quiet_raftBecomeCandidate env s).calm
  | win | alone => exact Or.inl (quiet_raftBecomeLeader env s).calm
  | flag | matched | sufficient =>
    refine Or.inl (calm_of_same rfl (map_updNode ?_ _) rfl rfl rfl)
    intro nd
    rfl
  | advance advanced => exact Or.inl (advanceCommit_commits advanced).calm
  | follow _ followed => exact Or.inl (followCommit_commits followed).calm

/-- A compaction moves the front of the log only. -/
theorem compactLog_core (s : Server ι α) :
    s.compactLog =
      { s with
        log := { s.log with front := s.compactLog.log.front, count := s.compactLog.log.count }
        lastCompactedIdx := s.compactLog.lastCompactedIdx
        calls := s.compactLog.calls } := by
  unfold Server.compactLog
  split
  · rfl
  · rfl

end Frames

end Cyclone.Raft
