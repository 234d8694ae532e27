/-
# Raft.Machine — one server as a state machine

An `Input` is a call the environment makes on a server: the library's entry points,
with the messages as `handle_incoming` passes them on.  `handle` runs one of them
and returns the answer that goes back to a message's source.  `step` is the same as
a labelled step: a call that ends the process has no successor.
-/
import Cyclone.Raft.Handlers
import Cyclone.Theory.Run

namespace Cyclone.Raft

set_option autoImplicit false

variable {ι α : Type}

/-- `msg_t`, by its `msg_type`. -/
inductive Msg (ι α : Type) where
  | requestvote (rv : MsgRequestvote ι)
  | requestvoteResponse (rvr : MsgRequestvoteResponse)
  | appendentries (ae : MsgAppendentries ι α)
  | appendentriesResponse (aer : MsgAppendentriesResponse)
deriving DecidableEq, Repr

/-- A call made on a server. -/
inductive Input (ι α : Type) where
  | periodic (msec : Int)
  | recvEntry (e : MsgEntry ι α)
  | recvEntryBatch (es : List (MsgEntry ι α))
  | checkpoint (logIndex : Int)
  | recv (source : ι) (msg : Msg ι α)
deriving DecidableEq, Repr

namespace Server

variable [DecidableEq ι]

/-- `handle_incoming`: the handler of a message, and the answer it sends back. -/
def handleIncoming (env : Env α) (s : Server ι α) (source : ι) :
    Msg ι α → Except (Fault ι α) (Server ι α × Option (Msg ι α))
  | .requestvote rv => (s.raftRecvRequestvote rv).map fun p => (p.1, some (.requestvoteResponse p.2))
  | .requestvoteResponse rvr => .ok (s.raftRecvRequestvoteResponse env source rvr, none)
  | .appendentries ae =>
    (s.raftRecvAppendentries source ae).map fun p => (p.1, some (.appendentriesResponse p.2))
  | .appendentriesResponse aer =>
    (s.raftRecvAppendentriesResponse env source aer).map fun s => (s, none)

/-- One call on a server, with the answer to be sent. -/
def handle (env : Env α) (s : Server ι α) :
    Input ι α → Except (Fault ι α) (Server ι α × Option (Msg ι α))
  | .periodic msec => (s.raftPeriodic env msec).map fun s => (s, none)
  | .recvEntry e => (s.raftRecvEntry env e).map fun p => (p.1, none)
  | .recvEntryBatch es => (s.raftRecvEntryBatch env es).map fun p => (p.1, none)
  | .checkpoint logIndex => .ok (s.raftCheckpoint logIndex, none)
  | .recv source msg => s.handleIncoming env source msg

/-- The server `cyclone_setup` leaves: the active replicas are added as voters, and a replica that
is not among them adds itself without a vote. -/
def boot (me : ι) (replicas : Nat) (cfg : Config) (active : List ι) : Server ι α :=
  let s := active.foldl (fun s id => s.raftAddNode id (id = me)) (raftNew me replicas cfg)
  if me ∈ active then s else s.raftAddNonVotingNode me true

/-- A server with any initial membership: the nodes added one after another, as voters or without a
vote. -/
def enrol (me : ι) (replicas : Nat) (cfg : Config) (members : List (ι × Bool)) : Server ι α :=
  members.foldl
    (fun s p =>
      if p.2 then s.raftAddNode p.1 (p.1 = me) else s.raftAddNonVotingNode p.1 (p.1 = me))
    (raftNew me replicas cfg)

/-- The state a call leaves, whether it returns or ends the process. -/
def after : Except (Fault ι α) (Server ι α) → Server ι α
  | .ok s => s
  | .error f => f.server

/-- A call that returns. -/
def step (s : Server ι α) (l : Env α × Input ι α) : Option (Server ι α) :=
  match s.handle l.1 l.2 with
  | .ok p => some p.1
  | .error _ => none

end Server

end Cyclone.Raft
