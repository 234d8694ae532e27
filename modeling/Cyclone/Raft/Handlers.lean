/-
# Raft.Handlers — the handlers of `raft_server.c` over Cyclone's callbacks

Each function follows its C counterpart branch by branch.  A handler that can end
the process returns `Except Fault`.  The callbacks are Cyclone's: an offer stamps
the entry and applies a configuration change at once, a send cuts a range of the
log into one-entry packets under the header stored with each entry, and an
application may move the checkpoint.

`raftRecvAppendentries` is cut at its `goto` labels and comments into phases:
the term, the previous entry, the truncation on an empty message, the scan for the
first new entry, the append, and the commit index.
-/
import Cyclone.Raft.Server
import Mathlib.Data.List.Rotate

namespace Cyclone.Raft

set_option autoImplicit false

variable {ι α : Type}

/-- `raft_entry_is_voting_cfg_change`. -/
def Entry.isVotingCfgChange (e : Entry ι α) : Bool :=
  match e.type with
  | .addNonvotingNode _ => true
  | .removeNode _ => true
  | _ => false

/-- `PKT_BURST`. -/
def pktBurst : Nat := 32

/-- `__send_appendentries_opt`: an empty message goes out as it is; otherwise one packet
an entry, at most a burst, under the header stored in the entry's packet. -/
def sendAppendentriesOpt (m : MsgAppendentries ι α) : List (MsgAppendentries ι α) :=
  if m.entries = [] then [m]
  else (m.entries.take pktBurst).map fun e =>
    { m with
      prevLogIdx := e.head.prevLogIdx
      prevLogTerm := e.head.prevLogTerm
      entries := [e] }

namespace Server

variable [DecidableEq ι]

/-! ## Membership -/

/-- `raft_add_node`. -/
def raftAddNode (s : Server ι α) (id : ι) (isSelf : Bool) : Server ι α :=
  match s.getNode id with
  | some _ => s.updNode id (·.setVoting true)
  | none =>
    { s with
      nodes := s.nodes ++ [nodeNew id]
      node := if isSelf then some id else s.node }

/-- `raft_add_non_voting_node`. -/
def raftAddNonVotingNode (s : Server ι α) (id : ι) (isSelf : Bool) : Server ι α :=
  (s.raftAddNode id isSelf).updNode id fun nd =>
    ((nd.setVoting false).setNextIdx s.votingCfgChangeLogIdx).setMatchIdx 0

/-- `raft_remove_node`: the new array is one shorter whether or not the node was found,
so a NULL node drops the last one. -/
def raftRemoveNode (s : Server ι α) (node : Option (Node ι)) : Server ι α :=
  match node with
  | some nd => { s with nodes := s.nodes.eraseP (·.id = nd.id) }
  | none => { s with nodes := s.nodes.dropLast }

/-- `handle_cfg_change`. -/
def handleCfgChange (s : Server ι α) (type : LogType ι) : Server ι α :=
  match type with
  | .normal => s
  | .addNonvotingNode id =>
    { s.raftAddNonVotingNode id (id = s.me) with sendingCheckpoints := true }
  | .addNode id => s.raftAddNode id (id = s.me)
  | .removeNode id => s.raftRemoveNode (s.getNode id)

/-! ## Writing and truncating the log -/

/-- `cyclone_is_leader`. -/
def cycloneIsLeader (s : Server ι α) : Bool := s.replicas = 1 ∨ s.state = .leader

/-- What an offer writes into the entry: `add_head` on a leader, and the id. -/
def stamp (isLeader : Bool) (prev : Option (Entry ι α)) (idx : Int) (e : Entry ι α) : Entry ι α :=
  { e with
    head := if isLeader then ⟨idx, (prev.map (·.term)).getD 0⟩ else e.head
    id := idx }

/-- The loop of `__raft_logentry_offer_batch`; returns the stamped entries. -/
def raftLogentryOfferBatch (isLeader : Bool) :
    Server ι α → List (Entry ι α) → Option (Entry ι α) → Int → Server ι α × List (Entry ι α)
  | s, [], _, _ => (s, [])
  | s, e :: es, prev, idx =>
    let e := stamp isLeader prev idx e
    let rest := raftLogentryOfferBatch isLeader
      ((s.handleCfgChange e.type).call (.logOffer e idx)) es (some e) (idx + 1)
    (rest.1, e :: rest.2)

/-- The newest entry, as the `prev` of an offer. -/
def prevEntry (s : Server ι α) : Option (Entry ι α) :=
  if 0 < s.log.back then s.log.entries[(s.log.back - 1).toNat]? else none

/-- `raft_append_entry`. -/
def raftAppendEntry (s : Server ι α) (e : Entry ι α) : Server ι α :=
  let offered := raftLogentryOfferBatch s.cycloneIsLeader s [e] s.prevEntry s.log.back
  { offered.1 with log := offered.2.foldl logAppendEntry s.log }

/-- `raft_append_entry_batch`. -/
def raftAppendEntryBatch (s : Server ι α) (es : List (Entry ι α)) : Server ι α :=
  let offered := raftLogentryOfferBatch s.cycloneIsLeader s es s.prevEntry s.log.back
  { offered.1 with log := logAppendBatch s.log offered.2 }

/-- `log_delete` as `raft_recv_appendentries` uses it: a pending voting change at or past
`idx` is forgotten first. -/
def truncate (s : Server ι α) (idx : Int) : Server ι α :=
  let cut := logDelete s.log idx
  { s with
    votingCfgChangeLogIdx :=
      if s.votingCfgChangeLogIdx ≠ -1 ∧ s.votingCfgChangeLogIdx ≥ idx then -1
      else s.votingCfgChangeLogIdx
    log := cut.1
    calls := s.calls ++ cut.2.map fun p => .logPop p.1 p.2 }

/-- `raft_checkpoint`. -/
def raftCheckpoint (s : Server ι α) (logIndex : Int) : Server ι α :=
  let logIndex := logIndex + 1
  { s with logBase := if logIndex > s.lastAppliedIdx then s.lastAppliedIdx else logIndex }

/-- `compact_log`. -/
def compactLog (s : Server ι α) : Server ι α :=
  if s.logBase ≤ s.lastCompactedIdx + 2 * s.logTarget then s
  else
    let target := s.lastCompactedIdx + s.logTarget
    let cnt := target - s.lastCompactedIdx
    { s with
      log := logPollBatch s.log cnt
      lastCompactedIdx := target
      calls := s.calls ++ (logPolled s.log cnt).map fun p => .logPollBatch p.1 p.2 }

/-! ## Committing and applying -/

/-- `raft_set_commit_idx`. -/
def setCommitIdx (s : Server ι α) (idx : Int) : Except (Fault ι α) (Server ι α) :=
  if s.commitIdx ≤ idx then
    if idx ≤ s.currentIdx then .ok { s with commitIdx := idx }
    else .error ⟨.assertion 124, s⟩
  else .error ⟨.assertion 123, s⟩

/-- The end of `__applylog`: a checkpoint at the index the executors have reached. -/
def takeCheckpoint (env : Env α) (idx : Int) (s : Server ι α) : Server ι α :=
  match env.checkpoint idx with
  | some c => if 0 ≤ c then s.raftCheckpoint c else s
  | none => s

/-- `__applylog`. -/
def applylog (env : Env α) (s : Server ι α) (ety : Entry ι α) (idx : Int) :
    Except (Fault ι α) (Server ι α) :=
  let s := s.call (.applylog ety idx)
  match ety.type with
  | .removeNode id => if id = s.me then .error ⟨.exit, s⟩ else .ok (takeCheckpoint env idx s)
  | .addNonvotingNode _ => .ok (takeCheckpoint env idx { s with sendingCheckpoints := false })
  | _ => .ok (takeCheckpoint env idx s)

/-- `raft_apply_entry`; `none` is its return of `-1`. -/
def raftApplyEntry (env : Env α) (s : Server ι α) :
    Except (Fault ι α) (Option (Server ι α)) :=
  if s.lastAppliedIdx = s.commitIdx then .ok none
  else
    let logIdx := s.lastAppliedIdx + 1
    match s.entryFromIdx logIdx with
    | none => .ok none
    | some ety =>
      match applylog env { s with lastAppliedIdx := logIdx } ety (logIdx - 1) with
      | .error f => .error f
      | .ok s =>
        .ok (some
          { s with
            votingCfgChangeLogIdx :=
              if logIdx = s.votingCfgChangeLogIdx then -1 else s.votingCfgChangeLogIdx })

/-- The loops over `raft_apply_entry`, `fuel` turns; the flag says the loop ran to its end. -/
def applyLoop (env : Env α) : Nat → Server ι α → Except (Fault ι α) (Server ι α × Bool)
  | 0, s => .ok (s, true)
  | fuel + 1, s =>
    if s.lastAppliedIdx < s.commitIdx then
      match s.raftApplyEntry env with
      | .error f => .error f
      | .ok none => .ok (s, false)
      | .ok (some s) => applyLoop env fuel s
    else .ok (s, true)

/-- A turn moves `lastAppliedIdx` by one, so the distance to `commitIdx` is enough fuel. -/
def applyCommitted (env : Env α) (s : Server ι α) : Except (Fault ι α) (Server ι α × Bool) :=
  applyLoop env (s.commitIdx - s.lastAppliedIdx).toNat s

/-! ## Sending -/

/-- The message `raft_send_appendentries` builds for a peer. -/
def mkAppendentries (s : Server ι α) (nextIdx : Int) : MsgAppendentries ι α where
  term := s.currentTerm
  leaderCommit := s.commitIdx
  prevLogIdx := if 1 < nextIdx then nextIdx - 1 else 0
  prevLogTerm :=
    if 1 < nextIdx then
      match s.entryFromIdx (nextIdx - 1) with
      | none => -1
      | some e => e.term
    else 0
  entries := logGetFromIdx s.log nextIdx

/-- The end of `raft_send_appendentries`: what the peer's node notes of the send. -/
def noteSent (multiInflight : Bool) (sent : Nat) (nd : Node ι) : Node ι :=
  if multiInflight then
    let nd := nd.setNextIdx (nd.nextIdx + sent)
    if sent = 0 then nd.setElapsed 0 else nd
  else nd.setElapsed 0

/-- `raft_send_appendentries`. -/
def raftSendAppendentries (env : Env α) (s : Server ι α) (id : ι) : Server ι α :=
  match s.getNode id with
  | none => s
  | some nd =>
    let ae := s.mkAppendentries nd.nextIdx
    let pkts := sendAppendentriesOpt ae
    let sent := if ae.entries = [] then 0 else min (env.tx s.calls.length) pkts.length
    let s := { s with calls := s.calls ++ pkts.map (Callback.sendAppendentries id) }
    s.updNode id (noteSent s.multiInflight sent)

/-- `raft_send_requestvote`. -/
def raftSendRequestvote (s : Server ι α) (id : ι) : Server ι α :=
  s.call (.sendRequestvote id
    { term := s.currentTerm
      candidateId := s.node
      lastLogIdx := s.currentIdx
      lastLogTerm := s.lastLogTerm })

/-- A loop over `nodes`, each visited in its current state. -/
def forNodes (ids : List ι) (body : Server ι α → Node ι → Server ι α) (s : Server ι α) :
    Server ι α :=
  ids.foldl (fun s id =>
    match s.getNode id with
    | some nd => body s nd
    | none => s) s

/-- The loop of `raft_recv_entry` and `raft_recv_entry_batch`, from a random peer round. -/
def sendRound (env : Env α) (s : Server ι α) : Server ι α :=
  forNodes ((s.nodes.map (·.id)).rotate (env.rand % s.nodes.length))
    (fun s nd =>
      if s.node = some nd.id ∨ nd.voting = false then s else s.raftSendAppendentries env nd.id) s

/-! ## Roles -/

/-- `raft_become_leader`. -/
def raftBecomeLeader (env : Env α) (s : Server ι α) : Server ι α :=
  let s := s.setState .leader
  forNodes (s.nodes.map (·.id))
    (fun s nd =>
      if s.node = some nd.id ∨ nd.voting = false then s
      else
        (s.updNode nd.id fun nd =>
          (nd.setNextIdx (s.currentIdx + 1)).setMatchIdx 0).raftSendAppendentries env nd.id) s

/-- `raft_become_candidate`. -/
def raftBecomeCandidate (env : Env α) (s : Server ι α) : Server ι α :=
  let s := s.setCurrentTerm (s.currentTerm + 1)
  let s := { s with nodes := s.nodes.map fun nd => Node.voteForMe nd false }
  let s := s.voteForNodeid s.node
  let s := { s with currentLeader := none }
  let s := s.setState .candidate
  let s := { s with timeoutElapsed := env.rand % s.electionTimeout }
  forNodes (s.nodes.map (·.id))
    (fun s nd =>
      if s.node ≠ some nd.id ∧ nd.voting = true then s.raftSendRequestvote nd.id else s) s

/-! ## `raft_periodic` -/

/-- The leader's part: each peer's clock, and a send when it is due or behind. -/
def leaderTick (env : Env α) (msec : Int) (s : Server ι α) : Server ι α :=
  forNodes (s.nodes.map (·.id))
    (fun s nd =>
      if s.node = some nd.id then s
      else
        let elapsed := nd.timeoutElapsed + msec
        let s := s.updNode nd.id (·.setElapsed elapsed)
        if s.requestTimeout ≤ elapsed then s.raftSendAppendentries env nd.id
        else if nd.nextIdx ≤ s.currentIdx then s.raftSendAppendentries env nd.id
        else s)
    { s with timeoutElapsed := 0 }

/-- `raft_periodic` up to the applying of committed entries. -/
def periodicTick (env : Env α) (s : Server ι α) (msec : Int) :
    Except (Fault ι α) (Server ι α) :=
  let s := { s with timeoutElapsed := s.timeoutElapsed + msec }
  -- one voting node: the test of our own node is only made then
  let promoted : Except (Fault ι α) (Server ι α) :=
    if s.numVotingNodes = 1 then
      match s.selfVoting with
      | none => .error ⟨.undefined, s⟩
      | some voting =>
        .ok (if voting ∧ s.state ≠ .leader then s.raftBecomeLeader env else s)
    else .ok s
  match promoted with
  | .error f => .error f
  | .ok s =>
    if s.state = .leader then .ok (s.leaderTick env msec)
    else if s.electionTimeout ≤ s.timeoutElapsed then
      match s.selfVoting with
      | none => .error ⟨.undefined, s⟩
      | some voting =>
        .ok (if voting ∧ 1 < s.nodes.length then s.raftBecomeCandidate env else s)
    else .ok s

/-- `raft_periodic`. -/
def raftPeriodic (env : Env α) (s : Server ι α) (msec : Int) :
    Except (Fault ι α) (Server ι α) :=
  match s.periodicTick env msec with
  | .error f => .error f
  | .ok s =>
    match s.applyCommitted env with
    | .error f => .error f
    | .ok (s, true) => .ok s.compactLog
    | .ok (s, false) => .ok s

/-! ## Client entries -/

/-- The entry the server makes of a client's. -/
def entryOf (term : Int) (e : MsgEntry ι α) : Entry ι α :=
  { term := term, id := e.id, type := e.type, data := e.data, head := ⟨0, 0⟩ }

/-- `raft_recv_entry`.  With no node `rand() % num_nodes` divides by zero. -/
def raftRecvEntry (env : Env α) (s : Server ι α) (e : MsgEntry ι α) :
    Except (Fault ι α) (Server ι α × Except EntryError MsgEntryResponse) :=
  let ety := entryOf s.currentTerm e
  if ety.isVotingCfgChange ∧ s.votingCfgChangeLogIdx ≠ -1 then
    .ok (s, .error .oneVotingChangeOnly)
  else if s.state ≠ .leader then .ok (s, .error .notLeader)
  else
    let s := s.raftAppendEntry ety
    if s.nodes = [] then .error ⟨.undefined, s⟩
    else
      let s := s.sendRound env
      let s := if s.nodes.length = 1 then { s with commitIdx := s.currentIdx } else s
      let r : MsgEntryResponse := { id := e.id, idx := s.currentIdx, term := s.currentTerm }
      let s := if ety.isVotingCfgChange then { s with votingCfgChangeLogIdx := s.currentIdx } else s
      .ok (s, .ok r)

/-- The first loop of `raft_recv_entry_batch`: the index of the voting change of the batch,
or nothing when it would be a second one. -/
def detectVotingCfgChange : List (Entry ι α) → Int → Int → Option Int
  | [], _, detected => some detected
  | e :: es, idx, detected =>
    if e.isVotingCfgChange then
      if detected ≠ -1 then none else detectVotingCfgChange es (idx + 1) idx
    else detectVotingCfgChange es (idx + 1) detected

/-- `raft_recv_entry_batch`; every response names the first entry. -/
def raftRecvEntryBatch (env : Env α) (s : Server ι α) (es : List (MsgEntry ι α)) :
    Except (Fault ι α) (Server ι α × Except EntryError (List MsgEntryResponse)) :=
  if s.state ≠ .leader then .ok (s, .error .notLeader)
  else
    let etys := es.map (entryOf s.currentTerm)
    match detectVotingCfgChange etys (s.currentIdx + 1) s.votingCfgChangeLogIdx with
    | none => .ok (s, .error .oneVotingChangeOnly)
    | some detected =>
      let first := s.currentIdx
      let s := { s with votingCfgChangeLogIdx := detected }.raftAppendEntryBatch etys
      if s.nodes = [] then .error ⟨.undefined, s⟩
      else
        let s := s.sendRound env
        let s := if s.nodes.length = 1 then { s with commitIdx := s.currentIdx } else s
        let r : MsgEntryResponse := { id := first, idx := s.currentIdx, term := s.currentTerm }
        .ok (s, .ok (List.replicate es.length r))

/-! ## `raft_recv_appendentries` -/

/-- The label `fail`. -/
def failAt (s : Server ι α) (currentIdx : Int) : Server ι α × MsgAppendentriesResponse :=
  (s, { term := s.currentTerm, success := false, currentIdx := currentIdx, firstIdx := 0 })

/-- An empty message truncates past the entry after `prevLogIdx`. -/
def cutEmpty (s : Server ι α) (ae : MsgAppendentries ι α) : Except (Fault ι α) (Server ι α) :=
  if ae.entries = [] ∧ 0 < ae.prevLogIdx ∧ ae.prevLogIdx + 1 < s.currentIdx then
    if s.commitIdx < ae.prevLogIdx + 1 then .ok (s.truncate (ae.prevLogIdx + 1))
    else .error ⟨.assertion 480, s⟩
  else .ok s

/-- The scan for the first entry that conflicts or is missing: the entries from it on. -/
def scanEntries (s : Server ι α) :
    List (Entry ι α) → Int → Except (Fault ι α) (Server ι α × List (Entry ι α))
  | [], _ => .ok (s, [])
  | e :: es, etyIndex =>
    match s.entryFromIdx etyIndex with
    | none => .ok (s, e :: es)
    | some existing =>
      if existing.term ≠ e.term then
        if s.commitIdx < etyIndex then .ok (s.truncate etyIndex, e :: es)
        else .error ⟨.assertion 498, s⟩
      else scanEntries s es (etyIndex + 1)

/-- The last voting change among the entries appended from `idx` on. -/
def noteVotingCfgChange : List (Entry ι α) → Int → Int → Int
  | [], _, noted => noted
  | e :: es, idx, noted =>
    noteVotingCfgChange es (idx + 1) (if e.isVotingCfgChange then idx else noted)

/-- `accept_entries`: appends what the scan left, and releases the packets of the rest. -/
def acceptEntries (s : Server ι α) (ae : MsgAppendentries ι α) (fresh : List (Entry ι α)) :
    Server ι α :=
  let i := ae.entries.length - fresh.length
  let s := if fresh = [] then s else s.raftAppendEntryBatch fresh
  { s with
    calls := s.calls ++ (ae.entries.take i).map Callback.logPoll
    votingCfgChangeLogIdx :=
      noteVotingCfgChange fresh (ae.prevLogIdx + 1 + i) s.votingCfgChangeLogIdx }

/-- The commit index of a follower. -/
def followCommit (s : Server ι α) (ae : MsgAppendentries ι α) :
    Except (Fault ι α) (Server ι α) :=
  if s.commitIdx < ae.leaderCommit then
    let lastLogIdx := max s.currentIdx 1
    s.setCommitIdx (min lastLogIdx ae.leaderCommit)
  else .ok s

/-- The answer to an accepted message. -/
def acceptReply (s : Server ι α) (ae : MsgAppendentries ι α) : MsgAppendentriesResponse where
  term := s.currentTerm
  success := true
  currentIdx := ae.prevLogIdx + ae.entries.length
  firstIdx := ae.prevLogIdx + 1

/-- From the commit index to the end. -/
def aeFinish (s : Server ι α) (node : Option ι) (ae : MsgAppendentries ι α) :
    Except (Fault ι α) (Server ι α × MsgAppendentriesResponse) :=
  match s.followCommit ae with
  | .error f => .error f
  | .ok s => .ok ({ s with currentLeader := node }, s.acceptReply ae)

/-- From the truncation on an empty message to the end. -/
def aeAccept (s : Server ι α) (node : Option ι) (ae : MsgAppendentries ι α) :
    Except (Fault ι α) (Server ι α × MsgAppendentriesResponse) :=
  match s.cutEmpty ae with
  | .error f => .error f
  | .ok s =>
    match s.scanEntries ae.entries (ae.prevLogIdx + 1) with
    | .error f => .error f
    | .ok (s, fresh) => (s.acceptEntries ae fresh).aeFinish node ae

/-- The check of the previous entry. -/
def aeCheckPrev (s : Server ι α) (node : Option ι) (ae : MsgAppendentries ι α) :
    Except (Fault ι α) (Server ι α × MsgAppendentriesResponse) :=
  if 0 < ae.prevLogIdx ∧ s.logBase ≤ ae.prevLogIdx then
    match s.entryFromIdx ae.prevLogIdx with
    | none => .ok (s.failAt s.currentIdx)
    | some e =>
      if s.currentIdx < ae.prevLogIdx then .ok (s.failAt s.currentIdx)
      else if e.term ≠ ae.prevLogTerm then
        if s.commitIdx < ae.prevLogIdx then
          .ok ((s.truncate ae.prevLogIdx).failAt (ae.prevLogIdx - 1))
        else .error ⟨.assertion 463, s⟩
      else s.aeAccept node ae
  else s.aeAccept node ae

/-- A message resets the election clock, except an empty one on a preferred leader. -/
def heard (s : Server ι α) (ae : MsgAppendentries ι α) : Server ι α :=
  if s.preferredLeader = false ∨ ae.entries ≠ [] then { s with timeoutElapsed := 0 } else s

/-- `raft_recv_appendentries`.  In a server without a vote of its own `log_delete` is called on
the server itself instead of its log: that call is undefined. -/
def raftRecvAppendentries (s : Server ι α) (source : ι) (ae : MsgAppendentries ι α) :
    Except (Fault ι α) (Server ι α × MsgAppendentriesResponse) :=
  let node := (s.getNode source).map (·.id)
  let s := s.heard ae
  if ae.prevLogTerm = -1 then .error ⟨.exit, s⟩
  else if s.state = .candidate ∧ s.currentTerm = ae.term then s.becomeFollower.aeCheckPrev node ae
  else if s.currentTerm < ae.term then
    let s := (s.setCurrentTerm ae.term).becomeFollower
    if s.selfVoting = some true then s.aeCheckPrev node ae else .error ⟨.undefined, s⟩
  else if ae.term < s.currentTerm then .ok (s.failAt s.currentIdx)
  else s.aeCheckPrev node ae

/-! ## `raft_recv_appendentries_response` -/

/-- `__raft_has_sufficient_logs`; the flag is its return value as a truth value. -/
def raftHasSufficientLogs (env : Env α) (s : Server ι α) (id : ι) :
    Except (Fault ι α) (Server ι α × Bool) :=
  if s.sendingCheckpoints then .ok (s, true)
  else
    match s.raftRecvEntryBatch env [{ id := 1, type := .addNode id, data := env.completion }] with
    | .error f => .error f
    | .ok (s, _) => .ok (s, false)

/-- The promotion of a peer that caught up. -/
def promote (env : Env α) (s : Server ι α) (nd : Node ι) (currentIdx : Int) :
    Except (Fault ι α) (Server ι α) :=
  if nd.voting = false ∧ s.votingCfgChangeLogIdx = -1 ∧ s.currentIdx ≤ currentIdx + 1 ∧
      nd.hasSufficientLog = false then
    match s.raftHasSufficientLogs env nd.id with
    | .error f => .error f
    | .ok (s, true) => .ok (s.updNode nd.id fun nd => { nd with hasSufficientLog := true })
    | .ok (s, false) => .ok s
  else .ok s

/-- A peer counts for `point` when what it matched is an entry of the current term. -/
def countsFor (s : Server ι α) (point : Int) (nd : Node ι) : Bool :=
  !(s.node = some nd.id ∨ nd.voting = false) && 0 < nd.matchIdx &&
    match s.entryFromIdx nd.matchIdx with
    | some ety => ety.term = s.currentTerm ∧ point ≤ nd.matchIdx
    | none => false

/-- The commit rule. -/
def advanceCommit (s : Server ι α) (point : Int) : Except (Fault ι α) (Server ι α) :=
  let votes := 1 + s.nodes.countP (s.countsFor point)
  if s.numVotingNodes / 2 < votes ∧ s.commitIdx < point then s.setCommitIdx point else .ok s

/-- A positive answer of the current term. -/
def ackReceived (env : Env α) (s : Server ι α) (nd : Node ι) (currentIdx : Int) :
    Except (Fault ι α) (Server ι α) :=
  if s.currentIdx < currentIdx then .error ⟨.assertion 332, s⟩
  else
    let s := s.updNode nd.id fun nd =>
      (nd.setNextIdx (max (currentIdx + 1) nd.nextIdx)).setMatchIdx currentIdx
    match s.promote env nd currentIdx with
    | .error f => .error f
    | .ok s =>
      match s.advanceCommit currentIdx with
      | .error f => .error f
      | .ok s =>
        let behind := (s.getNode nd.id).bind fun nd => s.entryFromIdx nd.nextIdx
        let s := if behind.isSome then s.raftSendAppendentries env nd.id else s
        match s.applyCommitted env with
        | .error f => .error f
        | .ok (s, _) => .ok s

/-- `raft_recv_appendentries_response`. -/
def raftRecvAppendentriesResponse (env : Env α) (s : Server ι α) (source : ι)
    (r : MsgAppendentriesResponse) : Except (Fault ι α) (Server ι α) :=
  match s.getNode source with
  | none => .ok s
  | some nd =>
    if r.currentIdx ≤ nd.matchIdx ∧ nd.matchIdx ≠ 0 then .ok s
    else if s.state ≠ .leader then .ok s
    else if s.currentTerm < r.term then .ok (s.setCurrentTerm r.term).becomeFollower
    else if s.currentTerm ≠ r.term then .ok s
    else if r.success = false then
      let nextIdx := (nd.setNextIdx (min (r.currentIdx + 1) s.currentIdx)).nextIdx
      let s := s.updNode nd.id (·.setNextIdx (min (r.currentIdx + 1) s.currentIdx))
      if nd.matchIdx < nextIdx then .ok (s.raftSendAppendentries env nd.id)
      else .error ⟨.assertion 326, s⟩
    else s.ackReceived env nd r.currentIdx

/-! ## Votes -/

/-- `__should_grant_vote`; nothing when it would read a missing entry. -/
def shouldGrantVote (s : Server ι α) (vr : MsgRequestvote ι) : Option Bool :=
  if vr.term < s.currentTerm then some false
  else if s.votedFor ≠ none then some false
  else if s.currentIdx = 0 then some true
  else
    (s.entryFromIdx s.currentIdx).map fun e =>
      e.term < vr.lastLogTerm ∨ (vr.lastLogTerm = e.term ∧ s.currentIdx ≤ vr.lastLogIdx)

/-- `raft_recv_requestvote`. -/
def raftRecvRequestvote (s : Server ι α) (vr : MsgRequestvote ι) :
    Except (Fault ι α) (Server ι α × MsgRequestvoteResponse) :=
  let s := if s.currentTerm < vr.term then (s.setCurrentTerm vr.term).becomeFollower else s
  match s.shouldGrantVote vr with
  | none => .error ⟨.undefined, s⟩
  | some true =>
    if s.state = .leader ∨ s.state = .candidate then .error ⟨.assertion 610, s⟩
    else
      let s := s.voteForNodeid vr.candidateId
      let s := { s with currentLeader := none, timeoutElapsed := 0 }
      .ok (s, { term := s.currentTerm, voteGranted := true })
  | some false => .ok (s, { term := s.currentTerm, voteGranted := false })

/-- `raft_votes_is_majority`. -/
def votesIsMajority (numNodes nvotes : Nat) : Bool :=
  if numNodes < nvotes then false else numNodes / 2 + 1 ≤ nvotes

/-- `raft_get_nvotes_for_me`. -/
def nvotesForMe (s : Server ι α) : Nat :=
  s.nodes.countP (fun nd => s.node ≠ some nd.id ∧ nd.voting ∧ nd.votedForMe) +
    if s.votedFor = s.node then 1 else 0

/-- `raft_recv_requestvote_response`. -/
def raftRecvRequestvoteResponse (env : Env α) (s : Server ι α) (source : ι)
    (r : MsgRequestvoteResponse) : Server ι α :=
  if s.state ≠ .candidate then s
  else if s.currentTerm < r.term then (s.setCurrentTerm r.term).becomeFollower
  else if s.currentTerm ≠ r.term then s
  else if r.voteGranted then
    let s := s.updNode source (·.voteForMe true)
    if votesIsMajority s.nodes.length s.nvotesForMe then s.raftBecomeLeader env else s
  else s

end Server

end Cyclone.Raft
