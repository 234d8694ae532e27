/-
# Core.Placement — which queue is where

Queue ids count the ports first, then for each kind of queue one for every quorum, then one for every
executor thread.  The ids are dealt out to the ports in turn, as `queue2port` and
`queue_index_at_port` say for one queue and `num_queues_at_port` for all of a port.
-/
import Mathlib.Tactic.Common

namespace Cyclone.Core

set_option autoImplicit false

def queue2port (queue numPorts : Nat) : Nat := queue % numPorts

def numQueuesAtPort (port numQueues numPorts : Nat) : Nat :=
  let base := numQueues / numPorts
  if port < numQueues % numPorts then base + 1 else base

def queueIndexAtPort (queue numPorts : Nat) : Nat := queue / numPorts

/-- `num_queues`: `q_raft` and `q_dispatcher`. -/
def queueKinds : Nat := 2

/-- `my_q` of a server. -/
def myQ (ports numQuorums meQuorum q : Nat) : Nat := ports + q * numQuorums + meQuorum

/-- `quorum_q` of a client. -/
def quorumQ (serverPorts numQuorums quorumId q : Nat) : Nat := serverPorts + q * numQuorums + quorumId

/-- The queue on which `exec` replies. -/
def executorQ (ports numQuorums tid : Nat) : Nat := ports + queueKinds * numQuorums + tid

def totalQueues (ports numQuorums executorThreads : Nat) : Nat :=
  ports + queueKinds * numQuorums + executorThreads

/-- Who has a queue. -/
inductive QueueOwner (numQuorums executorThreads : Nat)
  | ofQuorum (q : Fin queueKinds) (quorum : Fin numQuorums)
  | ofExecutor (tid : Fin executorThreads)

def QueueOwner.queue {numQuorums executorThreads : Nat} (ports : Nat) :
    QueueOwner numQuorums executorThreads → Nat
  | .ofQuorum q quorum => myQ ports numQuorums quorum q
  | .ofExecutor tid => executorQ ports numQuorums tid

variable {ports numQuorums executorThreads : Nat}

/-- The queues of the quorums come before those of the executors. -/
theorem myQ_lt (q : Fin queueKinds) (quorum : Fin numQuorums) :
    myQ ports numQuorums quorum q < ports + queueKinds * numQuorums := by
  have rows : (q + 1) * numQuorums ≤ queueKinds * numQuorums := Nat.mul_le_mul_right _ q.isLt
  have := quorum.isLt
  rw [Nat.succ_mul] at rows
  unfold myQ
  omega

theorem QueueOwner.queue_lt (owner : QueueOwner numQuorums executorThreads) :
    owner.queue ports < totalQueues ports numQuorums executorThreads := by
  cases owner with
  | ofQuorum q quorum => exact Nat.lt_of_lt_of_le (myQ_lt q quorum) (Nat.le_add_right ..)
  | ofExecutor tid => exact Nat.add_lt_add_left tid.isLt _

theorem QueueOwner.queue_injective (owner owner' : QueueOwner numQuorums executorThreads)
    (same : owner.queue ports = owner'.queue ports) : owner = owner' := by
  cases owner with
  | ofQuorum q quorum =>
    cases owner' with
    | ofQuorum q' quorum' =>
      -- `quorum` and `q` are the remainder and the quotient
      have rows : quorum + numQuorums * q = quorum' + numQuorums * q' := by
        have : q * numQuorums + quorum = q' * numQuorums + quorum' := by
          simp only [queue, myQ] at same
          omega
        rw [Nat.mul_comm numQuorums, Nat.mul_comm numQuorums]
        omega
      have positive : 0 < numQuorums := Nat.lt_of_le_of_lt (Nat.zero_le _) quorum.isLt
      have kinds := congrArg (· / numQuorums) rows
      have quorums := congrArg (· % numQuorums) rows
      simp only [Nat.add_mul_div_left _ _ positive, Nat.div_eq_of_lt quorum.isLt,
        Nat.div_eq_of_lt quorum'.isLt, Nat.zero_add] at kinds
      simp only [Nat.add_mul_mod_self_left, Nat.mod_eq_of_lt quorum.isLt,
        Nat.mod_eq_of_lt quorum'.isLt] at quorums
      rw [Fin.ext kinds, Fin.ext quorums]
    | ofExecutor tid =>
      exact absurd same (Nat.ne_of_lt (Nat.lt_of_lt_of_le (myQ_lt q quorum) (Nat.le_add_right ..)))
  | ofExecutor tid =>
    cases owner' with
    | ofQuorum q quorum =>
      exact absurd same.symm (Nat.ne_of_lt (Nat.lt_of_lt_of_le (myQ_lt q quorum) (Nat.le_add_right ..)))
    | ofExecutor tid' => rw [Fin.ext (Nat.add_left_cancel same)]

/-- A port has its queues at the indices below `num_queues_at_port`. -/
theorem index_lt_iff {p i : Nat} (total : Nat) (inside : p < ports) :
    ports * i + p < total ↔ i < numQueuesAtPort p total ports := by
  have whole := Nat.div_add_mod total ports
  have last := Nat.mod_lt total (Nat.lt_of_le_of_lt (Nat.zero_le p) inside)
  simp only [numQueuesAtPort]
  generalize total / ports = d at *
  generalize total % ports = rest at *
  rcases Nat.lt_trichotomy i d with less | rfl | more
  · have rows := Nat.mul_le_mul_left ports (Nat.succ_le_of_lt less)
    rw [Nat.mul_succ] at rows
    split <;> omega
  · split <;> omega
  · have rows := Nat.mul_le_mul_left ports (Nat.succ_le_of_lt more)
    rw [Nat.mul_succ] at rows
    split <;> omega

/-- **Placement.**  No two queues share an id, and clients count as servers do; no two ids share a place;
and every port's places are filled from index 0 on. -/
theorem queue_placement (some_ : 1 ≤ ports) (numQuorums executorThreads : Nat) :
    (∀ owner owner' : QueueOwner numQuorums executorThreads,
      owner.queue ports = owner'.queue ports → owner = owner') ∧
    (∀ owner : QueueOwner numQuorums executorThreads,
      owner.queue ports < totalQueues ports numQuorums executorThreads) ∧
    (∀ quorum q, quorumQ ports numQuorums quorum q = myQ ports numQuorums quorum q) ∧
    (∀ x y, queue2port x ports = queue2port y ports →
      queueIndexAtPort x ports = queueIndexAtPort y ports → x = y) ∧
    ∀ p < ports, ∀ i, (∃ x < totalQueues ports numQuorums executorThreads,
      queue2port x ports = p ∧ queueIndexAtPort x ports = i) ↔
        i < numQueuesAtPort p (totalQueues ports numQuorums executorThreads) ports := by
  refine ⟨QueueOwner.queue_injective, QueueOwner.queue_lt, fun _ _ => rfl, fun x y port index => ?_,
    fun p inside i => ?_⟩
  · rw [← Nat.div_add_mod x ports, ← Nat.div_add_mod y ports]
    exact congrArg₂ (ports * · + ·) index port
  · rw [← index_lt_iff _ inside]
    constructor
    · rintro ⟨x, below, rfl, rfl⟩
      rwa [queue2port, queueIndexAtPort, Nat.div_add_mod]
    · intro below
      refine ⟨ports * i + p, below, ?_, ?_⟩
      · rw [queue2port, Nat.mul_add_mod, Nat.mod_eq_of_lt inside]
      · rw [queueIndexAtPort, Nat.mul_add_div some_, Nat.div_eq_of_lt inside, Nat.add_zero]

/-- Two ports, three quorums and two executors: the ten ids make five queues a port. -/
theorem queue_placement_two_ports : totalQueues 2 3 2 = 10 ∧ numQueuesAtPort 1 10 2 = 5 ∧
    ∀ x y, queue2port x 2 = queue2port y 2 → queueIndexAtPort x 2 = queueIndexAtPort y 2 → x = y :=
  ⟨rfl, rfl, (queue_placement (by decide : 1 ≤ 2) 3 2).2.2.2.1⟩

end Cyclone.Core
