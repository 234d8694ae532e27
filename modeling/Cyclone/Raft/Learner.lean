/-
# Raft.Learner — a server without a vote that meets a later term

`raft_recv_appendentries` means to empty the log of such a server ("Delete everything --
wait for cfg change entry"), but it calls `log_delete(me_, 1)`: the server is passed where
every other branch passes `me->log`.  `log_delete` then takes fields of the server for the
cursors of a log and for the table of callbacks, which the language leaves undefined; so no
such call returns (`learner_never_reset`).

The handler is also given over whatever the stray call may do (`recvAppendentriesOver`).
If it does nothing, as when the half of the pointer `me->log` that stands for `back`
is zero, the branch deletes nothing: an entry that was committed and is still in the log
stays there, carried by the message or not.
-/
import Cyclone.Raft.Committed

namespace Cyclone.Raft

set_option autoImplicit false

variable {ι α : Type} [DecidableEq ι]

/-- `raft_recv_appendentries` over what `log_delete(me_, 1)` does to the server. -/
def Server.recvAppendentriesOver (stray : Server ι α → Except (Fault ι α) (Server ι α))
    (s : Server ι α) (source : ι) (ae : MsgAppendentries ι α) :
    Except (Fault ι α) (Server ι α × MsgAppendentriesResponse) :=
  let node := (s.getNode source).map (·.id)
  let s := s.heard ae
  if ae.prevLogTerm = -1 then .error ⟨.exit, s⟩
  else if s.state = .candidate ∧ s.currentTerm = ae.term then s.becomeFollower.aeCheckPrev node ae
  else if s.currentTerm < ae.term then
    let s := (s.setCurrentTerm ae.term).becomeFollower
    if s.selfVoting = some true then s.aeCheckPrev node ae
    else
      match stray s with
      | .error f => .error f
      | .ok s => s.aeCheckPrev node ae
  else if ae.term < s.currentTerm then .ok (s.failAt s.currentIdx)
  else s.aeCheckPrev node ae

/-- The handler of the machine. -/
theorem recvAppendentriesOver_undefined (s : Server ι α) (source : ι) (ae : MsgAppendentries ι α) :
    s.recvAppendentriesOver (fun s => .error ⟨.undefined, s⟩) source ae =
      s.raftRecvAppendentries source ae := rfl

/-- What the branch is for: the log holds only entries of the message, under ordered cursors. -/
def LearnerReset (ae : MsgAppendentries ι α)
    (result : Except (Fault ι α) (Server ι α × MsgAppendentriesResponse)) : Prop :=
  ∃ t r, result = .ok (t, r) ∧
    (∀ idx e, t.entryFromIdx idx = some e →
      ∃ x ∈ ae.entries, x.term = e.term ∧ x.type = e.type ∧ x.data = e.data) ∧
    0 ≤ t.lastAppliedIdx ∧ t.lastAppliedIdx ≤ t.commitIdx ∧ t.commitIdx ≤ t.currentIdx

section Reset

variable {s : Server ι α} {source : ι} {ae : MsgAppendentries ι α}

omit [DecidableEq ι] in
theorem adopted_of_later (later : s.currentTerm < ae.term) :
    s.adopted ae = ((s.heard ae).setCurrentTerm ae.term).becomeFollower := by
  rw [Server.adopted, if_pos later]

/-- The branch, up to the stray call. -/
theorem recvAppendentriesOver_later (stray : Server ι α → Except (Fault ι α) (Server ι α))
    (silent : s.selfVoting = some false) (later : s.currentTerm < ae.term)
    (present : ae.prevLogTerm ≠ -1) :
    s.recvAppendentriesOver stray source ae =
      match stray (s.adopted ae) with
      | .error f => .error f
      | .ok t => t.aeCheckPrev ((s.getNode source).map (·.id)) ae := by
  have term : (s.heard ae).currentTerm = s.currentTerm := by rw [heard_core]
  have voting : (s.adopted ae).selfVoting = some false := by
    rw [adopted_of_later later, setCurrentTerm_of_lt (by omega), heard_core]
    exact silent
  unfold Server.recvAppendentriesOver
  rw [if_neg present]
  simp only [term]
  rw [if_neg (by omega), if_pos later, ← adopted_of_later later, voting]
  rfl

/-- As the source stands, no call of the branch returns. -/
theorem raftRecvAppendentries_learner (silent : s.selfVoting = some false)
    (later : s.currentTerm < ae.term) :
    ∃ f, s.raftRecvAppendentries source ae = .error f := by
  rw [← recvAppendentriesOver_undefined]
  by_cases behind : ae.prevLogTerm = -1
  · rw [Server.recvAppendentriesOver, if_pos behind]
    exact ⟨_, rfl⟩
  · rw [recvAppendentriesOver_later _ silent later behind]
    exact ⟨_, rfl⟩

/-- If the stray call does nothing, nothing that was committed leaves the log. -/
theorem recvAppendentriesOver_retains {t : Server ι α} {r : MsgAppendentriesResponse}
    (env : Env α) (chain : IndexChain s) (silent : s.selfVoting = some false)
    (later : s.currentTerm < ae.term)
    (ran : s.recvAppendentriesOver .ok source ae = .ok (t, r)) :
    Retains s.commitIdx s.log t.log ∧ IndexChain t ∧ s.commitIdx ≤ t.commitIdx := by
  by_cases behind : ae.prevLogTerm = -1
  · rw [Server.recvAppendentriesOver, if_pos behind] at ran
    cases ran
  · rw [recvAppendentriesOver_later _ silent later behind] at ran
    have outcome := aeCheckPrev_spec (s := s) source behind (le_of_lt later)
    simp only at ran
    rw [ran] at outcome
    have course : Course env (.recv source (.appendentries ae)) s t :=
      (outcome.does env source).course
    obtain ⟨chain', up, -⟩ := course.advances chain
    exact ⟨course.retains chain (fun _ periodic => by cases periodic), chain', up⟩

/-- **Learner reset.**  For no server without a vote and no message of a later term does the call
return.  Were the stray call harmless, an entry that was committed would stay in the log although
the message does not carry it. -/
theorem learner_never_reset (silent : s.selfVoting = some false) (later : s.currentTerm < ae.term) :
    ¬ LearnerReset ae (s.raftRecvAppendentries source ae) ∧
    (IndexChain s →
      (∃ idx e, s.entryFromIdx idx = some e ∧ idx ≤ s.commitIdx ∧
        ∀ x ∈ ae.entries, ¬ (x.term = e.term ∧ x.type = e.type ∧ x.data = e.data)) →
      ¬ LearnerReset ae (s.recvAppendentriesOver .ok source ae)) := by
  constructor
  · rintro ⟨t, r, returned, -⟩
    obtain ⟨f, ended⟩ : ∃ f, s.raftRecvAppendentries source ae = .error f :=
      raftRecvAppendentries_learner silent later
    rw [ended] at returned
    cases returned
  · rintro chain ⟨idx, e, found, committed, foreign⟩ ⟨t, r, returned, only, -⟩
    obtain ⟨retained, chain', up⟩ := recvAppendentriesOver_retains
      ⟨0, fun _ => 0, fun _ => none, e.data⟩ chain silent later returned
    have low := (logGetAtIdx_bounds found).1
    have nonneg := chain.wf.front_nonneg
    have high := chain'.commit_le
    have still : t.entryFromIdx idx = some e := by
      rw [Server.entryFromIdx, logGetAtIdx_retained (retained.front ▸ nonneg) (retained.front ▸ low)
        (by omega), retained.entries _ (by omega)]
      exact chain.wf.getAtIdx_some found
    obtain ⟨x, carried, same⟩ := only idx e still
    exact foreign x carried same

end Reset

/-! ## A learner with one applied entry -/

/-- Node 1 without a vote, in term 1 with one entry committed and applied. -/
def learner : Server (Fin 2) Nat :=
  { (Server.enrol 1 2 ⟨1000, 200, 1000, false, true⟩ [(0, true), (1, false)] :
      Server (Fin 2) Nat) with
    currentTerm := 1
    log := logAppendEntry logNew ⟨1, 0, .normal, 7, ⟨0, 0⟩⟩
    commitIdx := 1
    lastAppliedIdx := 1
    calls := [.applylog ⟨1, 0, .normal, 7, ⟨0, 0⟩⟩ 0] }

/-- The leader of term 2 sends its first entry. -/
def newcomer : MsgAppendentries (Fin 2) Nat := ⟨2, 0, 0, 0, [⟨2, 0, .normal, 8, ⟨0, 0⟩⟩]⟩

theorem learner_chain : IndexChain learner := by
  refine ⟨⟨by decide, by decide, by decide, by decide, by decide⟩, by decide, by decide, by decide,
    by decide, by decide, by decide, by decide, ?_, by decide⟩
  exact trivial

theorem learner_never_reset_pair :
    ¬ LearnerReset newcomer (learner.raftRecvAppendentries 0 newcomer) ∧
      ¬ LearnerReset newcomer (learner.recvAppendentriesOver .ok 0 newcomer) := by
  have later : learner.currentTerm < newcomer.term := by decide
  have reset (source : Fin 2) := @learner_never_reset _ _ _ learner source newcomer rfl later
  refine ⟨(reset 0).1, (reset 0).2 learner_chain
    ⟨1, ⟨1, 0, .normal, 7, ⟨0, 0⟩⟩, by decide, by decide, ?_⟩⟩
  simp [newcomer]

/-- The call on it ends in undefined behaviour. -/
theorem learner_reset_undefined :
    0 ≤ learner.lastAppliedIdx ∧ learner.lastAppliedIdx ≤ learner.commitIdx ∧
    learner.commitIdx ≤ learner.currentIdx ∧ learner.selfVoting = some false ∧
    learner.currentTerm < newcomer.term ∧
    (learner.raftRecvAppendentries 0 newcomer).map (fun p => p.2.success) =
      .error ⟨.undefined, learner.adopted newcomer⟩ := by
  exact ⟨by decide, by decide, by decide, by decide, by decide, rfl⟩

end Cyclone.Raft
