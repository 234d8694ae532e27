/-
# Raft.Promotion — asking the application to promote a peer

When a peer without a vote has caught up, the handler of acknowledgements calls
`node_has_sufficient_logs`.  Its contract (`raft.h`): 0 means "does not want to be
notified again", -1 anything else.  The handler sets the flag that stops further calls
when the value is *not* 0.  So after a 0 the callback is called again, and after a -1 it
never is while the peer stays in the configuration.

The handler is given here over any callback (`raftRecvAppendentriesResponseWith`), with
the value it returned; Cyclone's callback is one instance.  A `Watched` server keeps a
turn for each acknowledgement that meets the conditions, and `Kept` is the contract on
turns.  It holds along every run in which no peer that was asked comes up again under
the same node.
-/
import Cyclone.Raft.Machine

namespace Cyclone.Raft

open Cyclone.Theory (Path anyStep)

set_option autoImplicit false

variable {ι α : Type}

/-- `node_has_sufficient_logs`: the server it leaves and the value it returns. -/
abbrev SufficientLogs (ι α : Type) :=
  Server ι α → ι → Except (Fault ι α) (Server ι α × Int)

namespace Server

variable [DecidableEq ι]

/-! ## The handler over any callback -/

/-- The promotion of a peer that caught up, and the value of the callback if it was called. -/
def promoteWith (cb : SufficientLogs ι α) (s : Server ι α) (nd : Node ι) (currentIdx : Int) :
    Except (Fault ι α) (Server ι α × Option Int) :=
  if nd.voting = false ∧ s.votingCfgChangeLogIdx = -1 ∧ s.currentIdx ≤ currentIdx + 1 ∧
      nd.hasSufficientLog = false then
    match cb s nd.id with
    | .error f => .error f
    | .ok (s, value) =>
      let s := if value ≠ 0 then s.updNode nd.id fun nd => { nd with hasSufficientLog := true }
        else s
      .ok (s, some value)
  else .ok (s, none)

/-- A positive answer of the current term. -/
def ackReceivedWith (cb : SufficientLogs ι α) (env : Env α) (s : Server ι α) (nd : Node ι)
    (currentIdx : Int) : Except (Fault ι α) (Server ι α × Option Int) :=
  if s.currentIdx < currentIdx then .error ⟨.assertion 332, s⟩
  else
    let s := s.updNode nd.id fun nd =>
      (nd.setNextIdx (max (currentIdx + 1) nd.nextIdx)).setMatchIdx currentIdx
    match s.promoteWith cb nd currentIdx with
    | .error f => .error f
    | .ok (s, asked) =>
      match s.advanceCommit currentIdx with
      | .error f => .error f
      | .ok s =>
        let behind := (s.getNode nd.id).bind fun nd => s.entryFromIdx nd.nextIdx
        let s := if behind.isSome then s.raftSendAppendentries env nd.id else s
        match s.applyCommitted env with
        | .error f => .error f
        | .ok (s, _) => .ok (s, asked)

/-- `raft_recv_appendentries_response`. -/
def raftRecvAppendentriesResponseWith (cb : SufficientLogs ι α) (env : Env α) (s : Server ι α)
    (source : ι) (r : MsgAppendentriesResponse) :
    Except (Fault ι α) (Server ι α × Option Int) :=
  match s.getNode source with
  | none => .ok (s, none)
  | some nd =>
    if r.currentIdx ≤ nd.matchIdx ∧ nd.matchIdx ≠ 0 then .ok (s, none)
    else if s.state ≠ .leader then .ok (s, none)
    else if s.currentTerm < r.term then .ok ((s.setCurrentTerm r.term).becomeFollower, none)
    else if s.currentTerm ≠ r.term then .ok (s, none)
    else if r.success = false then
      let nextIdx := (nd.setNextIdx (min (r.currentIdx + 1) s.currentIdx)).nextIdx
      let s := s.updNode nd.id (·.setNextIdx (min (r.currentIdx + 1) s.currentIdx))
      if nd.matchIdx < nextIdx then .ok (s.raftSendAppendentries env nd.id, none)
      else .error ⟨.assertion 326, s⟩
    else s.ackReceivedWith cb env nd r.currentIdx

/-- `__raft_has_sufficient_logs`. -/
def cycloneSufficientLogs (env : Env α) : SufficientLogs ι α := fun s id =>
  (s.raftHasSufficientLogs env id).map fun p => (p.1, if p.2 then -1 else 0)

end Server

section Cyclone

variable [DecidableEq ι] (env : Env α) (s : Server ι α)

theorem promoteWith_cyclone (nd : Node ι) (currentIdx : Int) :
    (s.promoteWith (Server.cycloneSufficientLogs env) nd currentIdx).map Prod.fst =
      s.promote env nd currentIdx := by
  unfold Server.promoteWith Server.promote Server.cycloneSufficientLogs
  split
  · cases s.raftHasSufficientLogs env nd.id with
    | error f => rfl
    | ok p =>
      obtain ⟨t, value⟩ := p
      cases value <;> rfl
  · rfl

theorem ackReceivedWith_cyclone (nd : Node ι) (currentIdx : Int) :
    (s.ackReceivedWith (Server.cycloneSufficientLogs env) env nd currentIdx).map Prod.fst =
      s.ackReceived env nd currentIdx := by
  unfold Server.ackReceivedWith Server.ackReceived
  split
  · rfl
  · simp only [← promoteWith_cyclone]
    generalize Server.promoteWith _ _ nd currentIdx = promoted
    cases promoted with
    | error f => rfl
    | ok p =>
      simp only [Except.map]
      cases p.1.advanceCommit currentIdx with
      | error f => rfl
      | ok t =>
        simp only
        generalize Server.applyCommitted env (_ : Server ι α) = applied
        cases applied <;> rfl

/-- With Cyclone's callback the handler is the one of the machine. -/
theorem raftRecvAppendentriesResponseWith_cyclone (source : ι) (r : MsgAppendentriesResponse) :
    (s.raftRecvAppendentriesResponseWith (Server.cycloneSufficientLogs env) env source r).map
      Prod.fst = s.raftRecvAppendentriesResponse env source r := by
  unfold Server.raftRecvAppendentriesResponseWith Server.raftRecvAppendentriesResponse
  cases s.getNode source with
  | none => rfl
  | some nd =>
    simp only [← ackReceivedWith_cyclone]
    repeat' split
    all_goals rfl

end Cyclone

/-! ## Turns -/

/-- The answer is one the handler acts on, and its peer has caught up with no voting change
pending: the conditions for the callback, but for the flag. -/
def Server.ripe [DecidableEq ι] (s : Server ι α) (source : ι) (r : MsgAppendentriesResponse) :
    Bool :=
  (s.getNode source).any fun nd => decide
    (¬ (r.currentIdx ≤ nd.matchIdx ∧ nd.matchIdx ≠ 0) ∧ s.state = .leader ∧
      s.currentTerm = r.term ∧ r.success = true ∧ nd.voting = false ∧
      s.votingCfgChangeLogIdx = -1 ∧ s.currentIdx ≤ r.currentIdx + 1)

/-- An acknowledgement that met the conditions, and what the callback returned if it was called. -/
structure Turn (ι : Type) where
  node : ι
  answer : Option Int
deriving DecidableEq, Repr

/-- A server and its turns so far. -/
structure Watched (ι α : Type) where
  server : Server ι α
  turns : List (Turn ι)

/-- The contract of `node_has_sufficient_logs`: no call after a 0, and a call at the next turn after
a -1. -/
structure Kept (turns : List (Turn ι)) : Prop where
  once : turns.Pairwise fun p q => p.answer = some 0 → q.node = p.node → q.answer = none
  again : ∀ (i j : Nat) (p q : Turn ι), turns[i]? = some p → turns[j]? = some q → i < j →
    p.answer = some (-1) → q.node = p.node →
    (∀ (k : Nat) (m : Turn ι), i < k → k < j → turns[k]? = some m → m.node ≠ p.node) →
    q.answer ≠ none

section Runs

variable [DecidableEq ι]

/-- A call, with the callback it may use. -/
abbrev Watched.Label (ι α : Type) := Env α × Input ι α × SufficientLogs ι α

/-- The source and the contents of an answer to appendentries. -/
def Input.answer : Input ι α → Option (ι × MsgAppendentriesResponse)
  | .recv source (.appendentriesResponse r) => some (source, r)
  | _ => none

def Watched.step (w : Watched ι α) (l : Watched.Label ι α) : Option (Watched ι α) :=
  match l.2.1.answer with
  | some (source, r) =>
    match w.server.raftRecvAppendentriesResponseWith l.2.2 l.1 source r with
    | .error _ => none
    | .ok (s, asked) =>
      some ⟨s, if w.server.ripe source r = true ∨ asked.isSome then
        w.turns ++ [⟨source, asked⟩] else w.turns⟩
  | none => (w.server.step (l.1, l.2.1)).map fun s => ⟨s, w.turns⟩

/-- `raft_node_has_sufficient_logs`, of the peer `id`. -/
def Server.flagged (s : Server ι α) (id : ι) : Bool := (s.getNode id).any (·.hasSufficientLog)

/-- A peer comes up only while its node is not flagged and the callback has not returned 0
for it. -/
def Watched.Unasked (w : Watched ι α) (l : Watched.Label ι α) : Prop :=
  match l.2.1.answer with
  | some (source, r) => w.server.ripe source r = true →
      w.server.flagged source = false ∧ ⟨source, some 0⟩ ∉ w.turns
  | none => True

instance (w : Watched ι α) (l : Watched.Label ι α) : Decidable (w.Unasked l) :=
  match answered : l.2.1.answer with
  | some (source, r) =>
    decidable_of_iff (w.server.ripe source r = true →
      w.server.flagged source = false ∧ ⟨source, some 0⟩ ∉ w.turns)
      (by rw [Watched.Unasked, answered])
  | none => isTrue (by rw [Watched.Unasked, answered]; trivial)

variable {cb : SufficientLogs ι α} {nd : Node ι} {currentIdx : Int} {asked : Option Int}

theorem promoteWith_asked {s t : Server ι α}
    (ran : s.promoteWith cb nd currentIdx = .ok (t, asked)) :
    asked.isSome = true ↔ (nd.voting = false ∧ s.votingCfgChangeLogIdx = -1 ∧
      s.currentIdx ≤ currentIdx + 1) ∧ nd.hasSufficientLog = false := by
  unfold Server.promoteWith at ran
  split at ran
  · rename_i due
    cases called : cb s nd.id with
    | error f => simp [called] at ran
    | ok p =>
      rw [called] at ran
      cases ran
      simp [due]
  · rename_i idle
    cases ran
    simp only [Option.isSome_none, Bool.false_eq_true, false_iff]
    rintro ⟨⟨silent, open_, close⟩, unflagged⟩
    exact idle ⟨silent, open_, close, unflagged⟩

variable {env : Env α}

theorem ackReceivedWith_asked {s t : Server ι α}
    (ran : s.ackReceivedWith cb env nd currentIdx = .ok (t, asked)) :
    asked.isSome = true ↔ (nd.voting = false ∧ s.votingCfgChangeLogIdx = -1 ∧
      s.currentIdx ≤ currentIdx + 1) ∧ nd.hasSufficientLog = false := by
  unfold Server.ackReceivedWith at ran
  split at ran
  · cases ran
  · dsimp only at ran
    split at ran
    · cases ran
    · rename_i s₁ asked₁ promoted
      split at ran
      · cases ran
      · split at ran
        · cases ran
        · cases ran
          have asks := promoteWith_asked promoted
          exact asks

/-- The callback is called exactly when the acknowledgement meets the conditions and the node is
not flagged. -/
theorem asked_iff {s t : Server ι α} {source : ι} {r : MsgAppendentriesResponse}
    (ran : s.raftRecvAppendentriesResponseWith cb env source r = .ok (t, asked)) :
    asked.isSome = true ↔ s.ripe source r = true ∧ s.flagged source = false := by
  unfold Server.raftRecvAppendentriesResponseWith at ran
  unfold Server.ripe Server.flagged
  cases found : s.getNode source with
  | none =>
    rw [found] at ran
    cases ran
    simp
  | some nd =>
    rw [found] at ran
    simp only [Option.any_some, decide_eq_true_eq]
    dsimp only at ran
    -- before the test of the callback every branch returns without it
    split at ran
    · rename_i stale
      cases ran
      simp [stale]
    · rename_i fresh
      split at ran
      · rename_i role
        cases ran
        simp [role]
      · rename_i leader
        split at ran
        · rename_i later
          cases ran
          simp [ne_of_lt later]
        · split at ran
          · rename_i other
            cases ran
            simp [other]
          · rename_i same
            split at ran
            · rename_i failed
              split at ran
              · cases ran
                simp [failed]
              · cases ran
            · rename_i success
              rw [ackReceivedWith_asked ran]
              simp only [not_not] at leader same
              simp [fresh, leader, same, success]

/-- One call: a turn is noted when the callback was called or should have been. -/
theorem Watched.step_turns {w w' : Watched ι α} {l : Watched.Label ι α}
    (taken : w.step l = some w') (unasked : w.Unasked l) :
    w'.turns = w.turns ∨ ∃ source value,
      w'.turns = w.turns ++ [⟨source, some value⟩] ∧ ⟨source, some 0⟩ ∉ w.turns := by
  unfold Watched.step at taken
  unfold Watched.Unasked at unasked
  split at taken
  · rename_i source r answered
    rw [answered] at unasked
    split at taken
    · cases taken
    · rename_i s asked ran
      cases taken
      have called := asked_iff ran
      dsimp only
      split
      · rename_i noted
        -- a ripe acknowledgement finds its node unflagged, so the callback is called
        have ripe : w.server.ripe source r = true := by
          rcases noted with ripe | some_
          · exact ripe
          · exact (called.mp some_).1
        obtain ⟨unflagged, unheard⟩ := unasked ripe
        obtain ⟨value, rfl⟩ := Option.isSome_iff_exists.mp (called.mpr ⟨ripe, unflagged⟩)
        exact Or.inr ⟨source, value, rfl, unheard⟩
      · exact Or.inl rfl
  · obtain ⟨s, -, rfl⟩ := Option.map_eq_some_iff.mp taken
    exact Or.inl rfl

/-- **Promotion.**  Over every callback and every run in which no flagged peer and no peer with a 0
comes up again, the contract of `node_has_sufficient_logs` is kept. -/
theorem promotion_kept (s : Server ι α) {w : Watched ι α}
    (run : Path Watched.step Watched.Unasked ⟨s, []⟩ w) : Kept w.turns := by
  have held : (∀ p ∈ w.turns, p.answer ≠ none) ∧
      w.turns.Pairwise fun p q => p.answer = some 0 → q.node = p.node → q.answer = none := by
    refine run.keeps (I := fun w => (∀ p ∈ w.turns, p.answer ≠ none) ∧
      w.turns.Pairwise fun p q => p.answer = some 0 → q.node = p.node → q.answer = none)
      ⟨by simp, .nil⟩ ?_
    rintro v l v' ⟨answered, once⟩ unasked taken
    rcases Watched.step_turns taken unasked with same | ⟨source, value, grown, unheard⟩
    · rw [same]
      exact ⟨answered, once⟩
    · rw [grown]
      constructor
      · simp only [List.mem_append, List.mem_singleton]
        rintro p (old | rfl)
        · exact answered p old
        · simp
      · refine List.pairwise_append.mpr ⟨once, List.pairwise_singleton _ _, ?_⟩
        simp only [List.mem_singleton]
        rintro p member q rfl zero same
        have heard : p = ⟨source, some 0⟩ := by
          rw [← zero]
          exact congrArg₂ Turn.mk same.symm rfl
        exact absurd (heard ▸ member) unheard
  refine ⟨held.2, fun i j p q _ at_ _ _ _ _ => ?_⟩
  exact held.1 q (List.mem_of_getElem? at_)

end Runs

/-! ## A leader with two peers without a vote -/

/-- Leads alone, with nodes 1 and 2 without a vote and an empty log. -/
def mentor : Server (Fin 3) Nat :=
  { Server.enrol 0 3 ⟨1000, 200, 1000, false, true⟩ [(0, true), (1, false), (2, false)] with
    state := .leader }

def mentorEnv : Env Nat := ⟨0, fun _ => 0, fun _ => none, 0⟩

/-- A client's entry. -/
def mentorEntry : Watched.Label (Fin 3) Nat :=
  (mentorEnv, .recvEntry ⟨0, .normal, 7⟩, fun s _ => .ok (s, 0))

/-- A positive answer of `node` at `idx`, while the callback would return `value`. -/
def mentorAck (node : Fin 3) (idx value : Int) : Watched.Label (Fin 3) Nat :=
  (mentorEnv, .recv node (.appendentriesResponse ⟨0, true, idx, 0⟩), fun s _ => .ok (s, value))

/-- Node 1 is promoted and node 2 refused, each asked once. -/
theorem promotion_kept_apart : ∃ w : Watched (Fin 3) Nat,
    w.turns = [⟨1, some 0⟩, ⟨2, some (-1)⟩] ∧ Kept w.turns := by
  have ran : ∃ w ∈ Theory.exec Watched.step Watched.Unasked ⟨mentor, []⟩
      [mentorEntry, mentorAck 1 1 0, mentorAck 2 1 (-1)],
      w.turns = [⟨1, some 0⟩, ⟨2, some (-1)⟩] := by
    decide +kernel
  obtain ⟨w, run, turns⟩ := Path.exists_of_exec ran
  exact ⟨w, turns, promotion_kept mentor run⟩

/-- After a 0 the callback is called again, and after a -1 it is not. -/
theorem promotion_reversed :
    (∃ w : Watched (Fin 3) Nat, Path Watched.step anyStep ⟨mentor, []⟩ w ∧
      w.turns = [⟨1, some 0⟩, ⟨1, some 0⟩] ∧ ¬ Kept w.turns) ∧
    ∃ w : Watched (Fin 3) Nat, Path Watched.step anyStep ⟨mentor, []⟩ w ∧
      w.turns = [⟨1, some (-1)⟩, ⟨1, none⟩] ∧ ¬ Kept w.turns := by
  have twice : ∃ w ∈ Theory.exec Watched.step anyStep ⟨mentor, []⟩
      [mentorEntry, mentorAck 1 1 0, mentorEntry, mentorAck 1 2 0],
      w.turns = [⟨1, some 0⟩, ⟨1, some 0⟩] := by
    decide +kernel
  have never : ∃ w ∈ Theory.exec Watched.step anyStep ⟨mentor, []⟩
      [mentorEntry, mentorAck 1 1 (-1), mentorEntry, mentorAck 1 2 (-1)],
      w.turns = [⟨1, some (-1)⟩, ⟨1, none⟩] := by
    decide +kernel
  obtain ⟨w, run, turns⟩ := Path.exists_of_exec twice
  obtain ⟨w', run', turns'⟩ := Path.exists_of_exec never
  refine ⟨⟨w, run, turns, fun kept => ?_⟩, w', run', turns', fun kept => ?_⟩
  · have once := kept.once
    rw [turns] at once
    simp at once
  · refine kept.again 0 1 ⟨1, some (-1)⟩ ⟨1, none⟩ (by simp [turns']) (by simp [turns']) (by omega)
      rfl rfl ?_ rfl
    intro k m low high
    omega

end Cyclone.Raft
