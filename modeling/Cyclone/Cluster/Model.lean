/-
# Cluster.Model — servers and a network

`n` servers under one fixed, all-voting membership.  `net` holds every packet ever
sent, and a delivery takes any of them: never (loss), again (duplication), late and
out of order.  A call that ends the process leaves the server down for good, in the
state it ended in; the packets it sent before are on the network.
-/
import Cyclone.Raft.Machine
import Mathlib.Data.List.FinRange
import Mathlib.Logic.Function.Basic

namespace Cyclone

open Cyclone.Raft

set_option autoImplicit false

variable {n : Nat} {α : Type}

/-- A message on the network. -/
structure Packet (n : Nat) (α : Type) where
  src : Fin n
  dst : Fin n
  msg : Msg (Fin n) α
deriving DecidableEq

/-- The servers, which of them are still running, and what was ever sent. -/
structure Cluster (n : Nat) (α : Type) where
  srv : Fin n → Server (Fin n) α
  up : Fin n → Bool
  net : List (Packet n α)

/-- A step of the cluster. -/
inductive Label (n : Nat) (α : Type) where
  | periodic (i : Fin n) (env : Env α) (msec : Int)
  | recvEntry (i : Fin n) (env : Env α) (id : Int) (data : α)
  | recvEntryBatch (i : Fin n) (env : Env α) (es : List (Int × α))
  | checkpoint (i : Fin n) (env : Env α) (logIndex : Int)
  | deliver (k : Nat) (env : Env α)

/-- Every packet is taken at once, and no checkpoint is made. -/
def wideEnv (a : α) : Env α := { quietEnv a with tx := fun _ => pktBurst }

namespace Label

/-- Labels of runs in which every packet is taken at once. -/
def tick (i : Fin n) (msec : Int) : Label n Nat := .periodic i (wideEnv 0) msec

def take (k : Nat) : Label n Nat := .deliver k (wideEnv 0)

def ask (i : Fin n) (data : Nat) : Label n Nat := .recvEntry i (wideEnv 0) 0 data

end Label

/-- The packets among the callbacks `cs` of server `i`. -/
def packetsOf (i : Fin n) (cs : List (Callback (Fin n) α)) : List (Packet n α) :=
  cs.filterMap fun c =>
    match c with
    | .sendRequestvote j rv => some ⟨i, j, .requestvote rv⟩
    | .sendAppendentries j ae => some ⟨i, j, .appendentries ae⟩
    | _ => none

/-- The callbacks a call added. -/
def newCalls (s s' : Server (Fin n) α) : List (Callback (Fin n) α) :=
  s'.calls.drop s.calls.length

namespace Cluster

/-- Server `i` makes a call; its answer goes to `reply`. -/
def call (c : Cluster n α) (i : Fin n) (env : Env α) (input : Input (Fin n) α)
    (reply : Fin n) : Cluster n α :=
  let s := c.srv i
  match s.handle env input with
  | .ok (s', answer) =>
    { c with
      srv := Function.update c.srv i s'
      net := c.net ++ packetsOf i (newCalls s s') ++
        (answer.map fun msg => (⟨i, reply, msg⟩ : Packet n α)).toList }
  | .error f =>
    { srv := Function.update c.srv i f.server
      up := Function.update c.up i false
      net := c.net ++ packetsOf i (newCalls s f.server) }

/-- The server a label runs on, the call, the environment, and who is answered. -/
def callOf (c : Cluster n α) :
    Label n α → Option (Fin n × Env α × Input (Fin n) α × Fin n)
  | .periodic i env msec => some (i, env, .periodic msec, i)
  | .recvEntry i env id data =>
    some (i, env, .recvEntry { id := id, type := .normal, data := data }, i)
  | .recvEntryBatch i env es =>
    some (i, env, .recvEntryBatch (es.map fun e => { id := e.1, type := .normal, data := e.2 }), i)
  | .checkpoint i env logIndex => some (i, env, .checkpoint logIndex, i)
  | .deliver k env => (c.net[k]?).map fun p => (p.dst, env, .recv p.src p.msg, p.src)

/-- One step; nothing when the server is down or there is no such packet. -/
def step (c : Cluster n α) (l : Label n α) : Option (Cluster n α) :=
  (c.callOf l).bind fun p =>
    if c.up p.1 then some (c.call p.1 p.2.1 p.2.2.1 p.2.2.2) else none

/-- Every server as `cyclone_setup` leaves it, all of them active. -/
def initial (cfg : Fin n → Config) : Cluster n α where
  srv := fun i => Server.boot i n (cfg i) (List.finRange n)
  up := fun _ => true
  net := []

end Cluster

/-! ## Reading a step -/

section Steps

variable {c c' : Cluster n α}

/-- A step, as the call it makes. -/
theorem step_call {l : Label n α} (taken : c.step l = some c') :
    ∃ i env input reply, c.callOf l = some (i, env, input, reply) ∧ c.up i = true ∧
      c' = c.call i env input reply := by
  obtain ⟨⟨i, env, input, reply⟩, called, rest⟩ := Option.bind_eq_some_iff.mp taken
  simp only at rest
  split at rest
  · rename_i running
    cases rest
    exact ⟨i, env, input, reply, called, running, rfl⟩
  · cases rest

variable {i : Fin n} {env : Env α} {input : Input (Fin n) α}

variable {s' : Server (Fin n) α}

theorem call_ok {answer : Option (Msg (Fin n) α)}
    (ran : (c.srv i).handle env input = .ok (s', answer)) (reply : Fin n) :
    c.call i env input reply =
      { c with
        srv := Function.update c.srv i s'
        net := c.net ++ packetsOf i (newCalls (c.srv i) s') ++
          (answer.map fun msg => (⟨i, reply, msg⟩ : Packet n α)).toList } := by
  simp only [Cluster.call, ran]

theorem call_error {f : Fault (Fin n) α} (ran : (c.srv i).handle env input = .error f)
    (reply : Fin n) :
    c.call i env input reply =
      { srv := Function.update c.srv i f.server
        up := Function.update c.up i false
        net := c.net ++ packetsOf i (newCalls (c.srv i) f.server) } := by
  simp only [Cluster.call, ran]

/-- A call changes the server it is made on, whether it returns or ends the process. -/
theorem call_srv (c : Cluster n α) (i : Fin n) (env : Env α) (input : Input (Fin n) α)
    (reply : Fin n) :
    (c.call i env input reply).srv =
      Function.update c.srv i (Server.after (((c.srv i).handle env input).map Prod.fst)) := by
  cases ran : (c.srv i).handle env input with
  | ok p => rw [call_ok ran]; rfl
  | error f => rw [call_error ran]; rfl

theorem newCalls_of_append {s : Server (Fin n) α} {cs : List (Callback (Fin n) α)}
    (calls : s'.calls = s.calls ++ cs) : newCalls s s' = cs := by
  rw [newCalls, calls, List.drop_left]

end Steps

end Cyclone
