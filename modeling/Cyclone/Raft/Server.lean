/-
# Raft.Server — the server state and its small operations

The state of `raft_server_private_t` with the peers of `raft_node.c`, and the three
fields of `cyclone_st` the raft callbacks read (`me`, `replicas`, `sendingCheckpoints`).
`calls` lists the callbacks made so far, in order: what the server sent, persisted,
applied and told the log about.  A peer's `flags` are three booleans.  `node` is
the pointer to the server's own node: an id to be looked up in `nodes`, so that
reading it after the node was freed finds nothing.

A run of a handler can end the process: a failed `assert`, an `exit`, or a read the
language leaves undefined.  Such a run is a `Fault`, with the state it stopped in.
-/
import Cyclone.Raft.Log

namespace Cyclone.Raft

set_option autoImplicit false

/-- `raft_state_e`; `raft_new` leaves `RAFT_STATE_NONE` at once. -/
inductive Role where
  | follower
  | candidate
  | leader
deriving DecidableEq, Repr

/-- `raft_node_private_t`, its flag word as three booleans.  Every writer of `next_idx` clamps
it to the first index of a log. -/
structure Node (ι : Type) where
  id : ι
  nextIdx : Int
  next_pos : 1 ≤ nextIdx
  matchIdx : Int
  timeoutElapsed : Int
  votedForMe : Bool
  voting : Bool
  hasSufficientLog : Bool
deriving DecidableEq, Repr

/-- `msg_requestvote_t`. -/
structure MsgRequestvote (ι : Type) where
  term : Int
  candidateId : Option ι
  lastLogIdx : Int
  lastLogTerm : Int
deriving DecidableEq, Repr

/-- `msg_requestvote_response_t`. -/
structure MsgRequestvoteResponse where
  term : Int
  voteGranted : Bool
deriving DecidableEq, Repr

/-- `msg_appendentries_t`; `n_entries` is the length of `entries`. -/
structure MsgAppendentries (ι α : Type) where
  term : Int
  prevLogIdx : Int
  prevLogTerm : Int
  leaderCommit : Int
  entries : List (Entry ι α)
deriving DecidableEq, Repr

/-- `msg_appendentries_response_t`. -/
structure MsgAppendentriesResponse where
  term : Int
  success : Bool
  currentIdx : Int
  firstIdx : Int
deriving DecidableEq, Repr

/-- `RAFT_ERR_ONE_VOTING_CHANGE_ONLY` and `RAFT_ERR_NOT_LEADER`. -/
inductive EntryError where
  | oneVotingChangeOnly
  | notLeader
deriving DecidableEq, Repr

/-- `msg_entry_response_t`. -/
structure MsgEntryResponse where
  id : Int
  idx : Int
  term : Int
deriving DecidableEq, Repr

/-- `msg_entry_t`, as a caller hands it in: no term and no packet header yet. -/
structure MsgEntry (ι α : Type) where
  id : Int
  type : LogType ι
  data : α
deriving DecidableEq, Repr

/-- A call of one of the functions of `raft_funcs`, with its arguments.  A batch offer
is one `logOffer` an entry. -/
inductive Callback (ι α : Type) where
  | sendRequestvote (node : ι) (msg : MsgRequestvote ι)
  | sendAppendentries (node : ι) (msg : MsgAppendentries ι α)
  | applylog (ety : Entry ι α) (idx : Int)
  | persistVote (votedFor : Option ι)
  | persistTerm (term : Int)
  | logOffer (ety : Entry ι α) (idx : Int)
  | logPoll (ety : Entry ι α)
  | logPollBatch (etys : List (Entry ι α)) (idx : Int)
  | logPop (ety : Entry ι α) (idx : Int)
deriving DecidableEq, Repr

/-- `raft_server_private_t`. -/
structure Server (ι α : Type) where
  currentTerm : Int
  votedFor : Option ι
  log : Log ι α
  commitIdx : Int
  lastAppliedIdx : Int
  state : Role
  timeoutElapsed : Int
  logBase : Int
  lastCompactedIdx : Int
  nodes : List (Node ι)
  electionTimeout : Int
  requestTimeout : Int
  logTarget : Int
  preferredLeader : Bool
  currentLeader : Option ι
  node : Option ι
  votingCfgChangeLogIdx : Int
  multiInflight : Bool
  me : ι
  replicas : Nat
  sendingCheckpoints : Bool
  calls : List (Callback ι α)
deriving DecidableEq, Repr

/-- Why the process ended: an `assert` (its line in `raft_server.c`, or 123 and 124 of
`raft_server_properties.c`), an `exit`, or behaviour the language leaves undefined. -/
inductive Cause where
  | assertion (line : Nat)
  | exit
  | undefined
deriving DecidableEq, Repr

/-- The end of the process, and the state it ended in. -/
structure Fault (ι α : Type) where
  cause : Cause
  server : Server ι α
deriving DecidableEq, Repr

/-- What the environment decides during one call of the library: the value `rand`
returns, how many packets of a send the network card took (a send is named by the
number of callbacks made before it), the index the executors have reached when
`__applylog` looks (`none`: no core has executed yet), and the packet
`__raft_has_sufficient_logs` builds. -/
structure Env (α : Type) where
  rand : Nat
  tx : Nat → Nat
  checkpoint : Int → Option Int
  completion : α

/-- What the setters of the library choose. -/
structure Config where
  electionTimeout : Int
  requestTimeout : Int
  logTarget : Int
  preferredLeader : Bool
  multiInflight : Bool

/-- The defaults of `raft_new`. -/
def defaultCfg : Config :=
  { electionTimeout := 1000, requestTimeout := 200, logTarget := 10000, preferredLeader := false,
    multiInflight := true }

/-- Elections after a second, heartbeats five times a second, the smallest log target. -/
def smallCfg : Config := { defaultCfg with logTarget := 1 }

variable {ι α : Type}

/-- An idle environment: nothing random, nothing transmitted at once, no checkpoint. -/
def quietEnv (a : α) : Env α :=
  { rand := 0, tx := fun _ => 0, checkpoint := fun _ => none, completion := a }

namespace Server

/-- `raft_new`, with the settings `cyclone_setup` makes; no node yet. -/
def raftNew (me : ι) (replicas : Nat) (cfg : Config) : Server ι α where
  currentTerm := 0
  votedFor := none
  log := logNew
  commitIdx := 0
  lastAppliedIdx := 0
  state := .follower
  timeoutElapsed := 0
  logBase := 0
  lastCompactedIdx := 0
  nodes := []
  electionTimeout := cfg.electionTimeout
  requestTimeout := cfg.requestTimeout
  logTarget := cfg.logTarget
  preferredLeader := cfg.preferredLeader
  currentLeader := none
  node := none
  votingCfgChangeLogIdx := -1
  multiInflight := cfg.multiInflight
  me := me
  replicas := replicas
  sendingCheckpoints := false
  calls := []

/-- Records a callback. -/
def call (s : Server ι α) (c : Callback ι α) : Server ι α :=
  { s with calls := s.calls ++ [c] }

/-- `raft_get_current_idx`. -/
def currentIdx (s : Server ι α) : Int := logGetCurrentIdx s.log

/-- `raft_get_entry_from_idx`. -/
def entryFromIdx (s : Server ι α) (idx : Int) : Option (Entry ι α) := logGetAtIdx s.log idx

/-- `raft_get_last_log_term`. -/
def lastLogTerm (s : Server ι α) : Int :=
  if 0 < s.currentIdx then
    match s.entryFromIdx s.currentIdx with
    | some e => e.term
    | none => 0
  else 0

/-- `raft_get_num_voting_nodes`. -/
def numVotingNodes (s : Server ι α) : Nat := s.nodes.countP (·.voting)

/-- `raft_set_state`. -/
def setState (s : Server ι α) (state : Role) : Server ι α :=
  { s with
    currentLeader := if state = .leader then s.node else s.currentLeader
    state := state }

/-- `raft_become_follower`. -/
def becomeFollower (s : Server ι α) : Server ι α := s.setState .follower

/-- `raft_set_current_term`: clears the vote in memory, persists only the term. -/
def setCurrentTerm (s : Server ι α) (term : Int) : Server ι α :=
  if s.currentTerm < term then
    { s with currentTerm := term, votedFor := none }.call (.persistTerm term)
  else s

/-- `raft_vote_for_nodeid`. -/
def voteForNodeid (s : Server ι α) (nodeid : Option ι) : Server ι α :=
  { s with votedFor := nodeid }.call (.persistVote nodeid)

variable [DecidableEq ι]

/-- `raft_get_node`. -/
def getNode (s : Server ι α) (id : ι) : Option (Node ι) := s.nodes.find? (·.id = id)

/-- `raft_node_is_voting(me->node)`; nothing when the node is NULL or was freed. -/
def selfVoting (s : Server ι α) : Option Bool :=
  s.node.bind fun id => (s.getNode id).map (·.voting)

/-- Writes through the pointer of the node `id`. -/
def updNode (s : Server ι α) (id : ι) (f : Node ι → Node ι) : Server ι α :=
  { s with nodes := s.nodes.map fun nd => if nd.id = id then f nd else nd }

end Server

/-- The first index is a cursor's least. -/
theorem first_pos : (1 : Int) ≤ 1 := Int.le_refl 1

/-- `raft_node_new`. -/
def nodeNew (id : ι) : Node ι :=
  { id := id, nextIdx := 1, next_pos := first_pos, matchIdx := 0, timeoutElapsed := 0,
    votedForMe := false, voting := true, hasSufficientLog := false }

namespace Node

/-- `raft_node_set_next_idx`. -/
def setNextIdx (nd : Node ι) (nextIdx : Int) : Node ι :=
  { nd with
    nextIdx := if nextIdx < 1 then 1 else nextIdx
    next_pos := by split <;> omega }

def setMatchIdx (nd : Node ι) (matchIdx : Int) : Node ι := { nd with matchIdx := matchIdx }

def setElapsed (nd : Node ι) (elapsed : Int) : Node ι := { nd with timeoutElapsed := elapsed }

def setVoting (nd : Node ι) (voting : Bool) : Node ι := { nd with voting := voting }

def voteForMe (nd : Node ι) (vote : Bool) : Node ι := { nd with votedForMe := vote }

end Node

end Cyclone.Raft
