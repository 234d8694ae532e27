/-
# Raft.Writes — appends, applications and received entries

What the handlers that touch the log do to it.  An append writes stamped entries at
the end and applies their configuration changes at once (`Appended`).  The apply
loop applies the next committed entry, again and again (`raftApplyEntry_spec`,
`applyCommitted_keeps`).  `AeOutcome` lists the ways `raft_recv_appendentries` can
end: an accepted message keeps the log or cuts it at one index (`Scan`), appends the
entries from the first new one on, and moves the commit index.
-/
import Cyclone.Raft.Effects

namespace Cyclone.Raft

set_option autoImplicit false

variable {ι α : Type}

/-! ## Stamping -/

/-- The entries of an append as the offers leave them. -/
def stampFrom (isLeader : Bool) :
    Option (Entry ι α) → Int → List (Entry ι α) → List (Entry ι α)
  | _, _, [] => []
  | prev, idx, e :: es =>
    let e := Server.stamp isLeader prev idx e
    e :: stampFrom isLeader (some e) (idx + 1) es

/-- The offers of an append. -/
def offers : Int → List (Entry ι α) → List (Callback ι α)
  | _, [] => []
  | idx, e :: es => .logOffer e idx :: offers (idx + 1) es

theorem mem_offers {idx : Int} {es : List (Entry ι α)} {c : Callback ι α}
    (member : c ∈ offers idx es) : ∃ e k, c = .logOffer e k := by
  induction es generalizing idx with
  | nil => cases member
  | cons e es ih =>
    rcases List.mem_cons.mp member with rfl | later
    · exact ⟨e, idx, rfl⟩
    · exact ih later

section Stamp

variable {isLeader : Bool}

@[simp] theorem stampFrom_length (prev : Option (Entry ι α)) (idx : Int) (es : List (Entry ι α)) :
    (stampFrom isLeader prev idx es).length = es.length := by
  induction es generalizing prev idx with
  | nil => rfl
  | cons e es ih => simp [stampFrom, ih]

/-- Stamping changes neither term, type nor data. -/
theorem stampFrom_map {β : Type} {f : Entry ι α → β}
    (same : ∀ prev idx e, f (Server.stamp isLeader prev idx e) = f e)
    (prev : Option (Entry ι α)) (idx : Int) (es : List (Entry ι α)) :
    (stampFrom isLeader prev idx es).map f = es.map f := by
  induction es generalizing prev idx with
  | nil => rfl
  | cons e es ih => simp [stampFrom, ih, same]

variable {prev : Option (Entry ι α)} {idx : Int} {es : List (Entry ι α)}

theorem stampFrom_forall {P : Entry ι α → Prop}
    (same : ∀ prev idx e, P e → P (Server.stamp isLeader prev idx e)) (all : ∀ e ∈ es, P e) :
    ∀ e ∈ stampFrom isLeader prev idx es, P e := by
  induction es generalizing prev idx with
  | nil => simp [stampFrom]
  | cons e es ih =>
    intro x member
    rcases List.mem_cons.mp member with rfl | later
    · exact same prev idx e (all e List.mem_cons_self)
    · exact ih (fun y inside => all y (List.mem_cons_of_mem e inside)) x later

/-- The term of the entry before an append's entry number `k`. -/
def termBefore (prev : Option (Entry ι α)) (es : List (Entry ι α)) : Nat → Int
  | 0 => (prev.map (·.term)).getD 0
  | k + 1 => ((es[k]?).map (·.term)).getD 0

/-- A leader's entries carry their index and the term of the entry before them. -/
theorem stampFrom_head {k : Nat} {e : Entry ι α} (at_ : (stampFrom true prev idx es)[k]? = some e) :
    e.id = idx + k ∧
      e.head = ⟨idx + k, termBefore prev (stampFrom true prev idx es) k⟩ := by
  induction es generalizing prev idx k with
  | nil => simp [stampFrom] at at_
  | cons x es ih =>
    cases k with
    | zero =>
      simp only [stampFrom, List.getElem?_cons_zero, Option.some.injEq] at at_
      subst at_
      simp [Server.stamp, termBefore]
    | succ k =>
      simp only [stampFrom, List.getElem?_cons_succ] at at_
      obtain ⟨id, head⟩ := ih at_
      have shift : idx + 1 + (k : Int) = idx + ((k + 1 : Nat) : Int) := by omega
      refine ⟨id.trans shift, head.trans ?_⟩
      rw [shift]
      cases k with
      | zero => simp [termBefore, stampFrom]
      | succ k => simp [termBefore, stampFrom]

end Stamp

/-! ## Configuration changes at append -/

section Append

variable [DecidableEq ι]

/-- The configuration changes of an append, in order. -/
def Server.applyCfg (s : Server ι α) (es : List (Entry ι α)) : Server ι α :=
  es.foldl (fun s e => s.handleCfgChange e.type) s

theorem raftAddNode_core (s : Server ι α) (id : ι) (isSelf : Bool) :
    s.raftAddNode id isSelf =
      { s with
        nodes := (s.raftAddNode id isSelf).nodes
        node := (s.raftAddNode id isSelf).node } := by
  unfold Server.raftAddNode
  split <;> rfl

theorem raftAddNode_calls (s : Server ι α) (cs : List (Callback ι α)) (id : ι) (isSelf : Bool) :
    ({ s with calls := cs } : Server ι α).raftAddNode id isSelf =
      { s.raftAddNode id isSelf with calls := cs } := by
  have same : Server.getNode ({ s with calls := cs } : Server ι α) id = s.getNode id := rfl
  cases found : s.getNode id with
  | none => simp only [Server.raftAddNode, same, found]
  | some nd =>
    simp only [Server.raftAddNode, same, found]
    rfl

/-- A configuration change writes only the nodes, the own node, and the checkpoint flag. -/
theorem handleCfgChange_core (s : Server ι α) (type : LogType ι) :
    s.handleCfgChange type =
      { s with
        nodes := (s.handleCfgChange type).nodes
        node := (s.handleCfgChange type).node
        sendingCheckpoints := (s.handleCfgChange type).sendingCheckpoints } := by
  cases type with
  | normal => rfl
  | addNonvotingNode id =>
    simp only [Server.handleCfgChange, Server.raftAddNonVotingNode]
    have core := raftAddNode_core s id (id = s.me)
    generalize s.raftAddNode id (id = s.me) = added at core ⊢
    rw [core]
    rfl
  | addNode id =>
    simp only [Server.handleCfgChange]
    have core := raftAddNode_core s id (id = s.me)
    generalize s.raftAddNode id (id = s.me) = added at core ⊢
    rw [core]
  | removeNode id =>
    simp only [Server.handleCfgChange, Server.raftRemoveNode]
    split <;> rfl

theorem handleCfgChange_calls (s : Server ι α) (cs : List (Callback ι α)) (type : LogType ι) :
    ({ s with calls := cs } : Server ι α).handleCfgChange type =
      { s.handleCfgChange type with calls := cs } := by
  cases type with
  | normal => rfl
  | addNonvotingNode id =>
    simp only [Server.handleCfgChange, Server.raftAddNonVotingNode]
    rw [raftAddNode_calls]
    rfl
  | addNode id =>
    simp only [Server.handleCfgChange]
    rw [raftAddNode_calls]
  | removeNode id =>
    have same : Server.getNode ({ s with calls := cs } : Server ι α) id = s.getNode id := rfl
    cases found : s.getNode id with
    | none => simp only [Server.handleCfgChange, Server.raftRemoveNode, same, found]
    | some nd => simp only [Server.handleCfgChange, Server.raftRemoveNode, same, found]

theorem applyCfg_core (s : Server ι α) (es : List (Entry ι α)) :
    s.applyCfg es =
      { s with
        nodes := (s.applyCfg es).nodes
        node := (s.applyCfg es).node
        sendingCheckpoints := (s.applyCfg es).sendingCheckpoints } := by
  induction es generalizing s with
  | nil => rfl
  | cons e es ih =>
    have first := handleCfgChange_core s e.type
    have rest := ih (s.handleCfgChange e.type)
    change (s.handleCfgChange e.type).applyCfg es =
      { s with
        nodes := ((s.handleCfgChange e.type).applyCfg es).nodes
        node := ((s.handleCfgChange e.type).applyCfg es).node
        sendingCheckpoints := ((s.handleCfgChange e.type).applyCfg es).sendingCheckpoints }
    generalize (s.handleCfgChange e.type).applyCfg es = last at rest ⊢
    generalize s.handleCfgChange e.type = next at first rest
    rw [rest, first]

theorem applyCfg_calls (s : Server ι α) (cs : List (Callback ι α)) (es : List (Entry ι α)) :
    ({ s with calls := cs } : Server ι α).applyCfg es = { s.applyCfg es with calls := cs } := by
  induction es generalizing s with
  | nil => rfl
  | cons e es ih =>
    have step := handleCfgChange_calls s cs e.type
    change (({ s with calls := cs } : Server ι α).handleCfgChange e.type).applyCfg es = _
    rw [step, ih]
    rfl

theorem applyCfg_normal (s : Server ι α) {es : List (Entry ι α)}
    (normal : ∀ e ∈ es, e.type = .normal) : s.applyCfg es = s := by
  induction es generalizing s with
  | nil => rfl
  | cons e es ih =>
    change (s.handleCfgChange e.type).applyCfg es = s
    rw [normal e List.mem_cons_self]
    exact ih s fun x later => normal x (List.mem_cons_of_mem e later)

theorem raftLogentryOfferBatch_eq (isLeader : Bool) (s : Server ι α) (es : List (Entry ι α))
    (prev : Option (Entry ι α)) (idx : Int) :
    Server.raftLogentryOfferBatch isLeader s es prev idx =
      ({ s.applyCfg (stampFrom isLeader prev idx es) with
          calls := s.calls ++ offers idx (stampFrom isLeader prev idx es) },
        stampFrom isLeader prev idx es) := by
  induction es generalizing s prev idx with
  | nil => simp [Server.raftLogentryOfferBatch, stampFrom, offers, Server.applyCfg]
  | cons e es ih =>
    rw [Server.raftLogentryOfferBatch]
    simp only [ih, stampFrom, offers]
    rw [Server.call, applyCfg_calls]
    have calls : (s.handleCfgChange (Server.stamp isLeader prev idx e).type).calls = s.calls := by
      rw [handleCfgChange_core]
    simp only [calls, List.append_assoc, List.singleton_append]
    rfl

/-- `s'` is `s` after the stamped entries `es` were appended. -/
structure Appended (s s' : Server ι α) (es : List (Entry ι α)) : Prop where
  core : s' = { s.applyCfg es with log := s'.log, calls := s.calls ++ offers s.log.back es }
  grown : s.log.Grown s'.log es

theorem raftAppendEntryBatch_spec (s : Server ι α) (es : List (Entry ι α)) :
    Appended s (s.raftAppendEntryBatch es)
      (stampFrom s.cycloneIsLeader s.prevEntry s.log.back es) := by
  unfold Server.raftAppendEntryBatch
  rw [raftLogentryOfferBatch_eq]
  exact ⟨rfl, logAppendBatch_grown _⟩

theorem raftAppendEntry_spec (s : Server ι α) (e : Entry ι α) :
    Appended s (s.raftAppendEntry e)
      (stampFrom s.cycloneIsLeader s.prevEntry s.log.back [e]) := by
  unfold Server.raftAppendEntry
  rw [raftLogentryOfferBatch_eq]
  exact ⟨rfl, logAppendEntry_grown _⟩

end Append

/-! ## Applying -/

section Apply

set_option linter.unusedSectionVars false

variable [DecidableEq ι] {env : Env α} {s s' : Server ι α}

/-- A checkpoint moves only the log base, and never past what is applied. -/
theorem takeCheckpoint_spec (env : Env α) (idx : Int) (s : Server ι α) :
    ∃ base, Server.takeCheckpoint env idx s = { s with logBase := base } ∧
      (base = s.logBase ∨ base ≤ s.lastAppliedIdx) := by
  unfold Server.takeCheckpoint
  split
  · split
    · refine ⟨_, rfl, Or.inr ?_⟩
      split <;> omega
    · exact ⟨s.logBase, rfl, Or.inl rfl⟩
  · exact ⟨s.logBase, rfl, Or.inl rfl⟩

/-- `s'` is `s` with its next committed entry applied. -/
structure AppliedNext (s s' : Server ι α) (ety : Entry ι α) : Prop where
  behind : s.lastAppliedIdx ≠ s.commitIdx
  found : s.entryFromIdx (s.lastAppliedIdx + 1) = some ety
  base : s'.logBase = s.logBase ∨ s'.logBase ≤ s.lastAppliedIdx + 1
  core : s' =
    { s with
      lastAppliedIdx := s.lastAppliedIdx + 1
      logBase := s'.logBase
      sendingCheckpoints := s'.sendingCheckpoints
      votingCfgChangeLogIdx :=
        if s.lastAppliedIdx + 1 = s.votingCfgChangeLogIdx then -1 else s.votingCfgChangeLogIdx
      calls := s.calls ++ [.applylog ety s.lastAppliedIdx] }

/-- Applying returns, or the entry removes this very node. -/
theorem applylog_spec (env : Env α) (s : Server ι α) (ety : Entry ι α) (idx : Int) :
    (∃ base sending, s.applylog env ety idx =
        .ok { s with logBase := base, sendingCheckpoints := sending,
                     calls := s.calls ++ [.applylog ety idx] } ∧
      (base = s.logBase ∨ base ≤ s.lastAppliedIdx)) ∨
    ety.type = .removeNode s.me ∧
      s.applylog env ety idx = .error ⟨.exit, s.call (.applylog ety idx)⟩ := by
  have checkpoint : ∀ t : Server ι α, t.logBase = s.logBase → t.lastAppliedIdx = s.lastAppliedIdx →
      ∃ base, Server.takeCheckpoint env idx t = { t with logBase := base } ∧
        (base = s.logBase ∨ base ≤ s.lastAppliedIdx) := by
    intro t same same'
    obtain ⟨base, eq, bound⟩ := takeCheckpoint_spec env idx t
    exact ⟨base, eq, by rwa [same, same'] at bound⟩
  obtain ⟨base, taken, bound⟩ := checkpoint (s.call (.applylog ety idx)) rfl rfl
  obtain ⟨base', taken', bound'⟩ :=
    checkpoint { s.call (.applylog ety idx) with sendingCheckpoints := false } rfl rfl
  cases type : ety.type with
  | normal =>
    exact Or.inl ⟨base, s.sendingCheckpoints, by simp only [Server.applylog, type, taken]; rfl, bound⟩
  | addNonvotingNode id =>
    exact Or.inl ⟨base', false, by simp only [Server.applylog, type, taken']; rfl, bound'⟩
  | addNode id =>
    exact Or.inl ⟨base, s.sendingCheckpoints, by simp only [Server.applylog, type, taken]; rfl, bound⟩
  | removeNode id =>
    by_cases self : id = s.me
    · right
      refine ⟨by rw [self], ?_⟩
      simp only [Server.applylog, type]
      exact if_pos self
    · left
      refine ⟨base, s.sendingCheckpoints, ?_, bound⟩
      simp only [Server.applylog, type, taken]
      exact if_neg self

theorem raftApplyEntry_spec (applied : s.raftApplyEntry env = .ok (some s')) :
    ∃ ety, AppliedNext s s' ety := by
  unfold Server.raftApplyEntry at applied
  split at applied
  · cases applied
  · rename_i behind
    simp only at applied
    split at applied
    · cases applied
    · rename_i ety found
      have idx : s.lastAppliedIdx + 1 - 1 = s.lastAppliedIdx := by omega
      rcases applylog_spec env { s with lastAppliedIdx := s.lastAppliedIdx + 1 } ety
        (s.lastAppliedIdx + 1 - 1) with ⟨base, sending, eq, bound⟩ | ⟨-, eq⟩
      · rw [eq] at applied
        cases applied
        rw [idx]
        exact ⟨ety, behind, found, bound, rfl⟩
      · rw [eq] at applied
        cases applied

variable {f : Fault ι α}

/-- The process ends while applying only at an entry that removes the server. -/
theorem raftApplyEntry_error (ended : s.raftApplyEntry env = .error f) :
    ∃ ety, s.entryFromIdx (s.lastAppliedIdx + 1) = some ety ∧ ety.type = .removeNode s.me ∧
      f = ⟨.exit, { s with
        lastAppliedIdx := s.lastAppliedIdx + 1
        calls := s.calls ++ [.applylog ety s.lastAppliedIdx] }⟩ := by
  unfold Server.raftApplyEntry at ended
  split at ended
  · cases ended
  · simp only at ended
    split at ended
    · cases ended
    · rename_i ety found
      have idx : s.lastAppliedIdx + 1 - 1 = s.lastAppliedIdx := by omega
      rw [idx] at ended
      rcases applylog_spec env { s with lastAppliedIdx := s.lastAppliedIdx + 1 } ety
        s.lastAppliedIdx with ⟨base, sending, eq, bound⟩ | ⟨removes, eq⟩
      · rw [eq] at ended
        cases ended
      · rw [eq] at ended
        cases ended
        exact ⟨ety, found, removes, rfl⟩

variable {I : Server ι α → Prop} {done : Bool}

/-- The rule for the apply loop: what one application keeps, the loop keeps. -/
theorem applyLoop_keeps (next : ∀ s s' ety, I s → AppliedNext s s' ety → I s') (fuel : Nat)
    (start : I s) (ran : Server.applyLoop env fuel s = .ok (s', done)) : I s' := by
  induction fuel generalizing s with
  | zero => cases ran; exact start
  | succ fuel ih =>
    rw [Server.applyLoop] at ran
    split at ran
    · split at ran
      · cases ran
      · cases ran; exact start
      · rename_i s₁ applied
        obtain ⟨ety, one⟩ := raftApplyEntry_spec applied
        exact ih (next s s₁ ety start one) ran
    · cases ran; exact start

theorem applyCommitted_keeps (next : ∀ s s' ety, I s → AppliedNext s s' ety → I s') (start : I s)
    (ran : s.applyCommitted env = .ok (s', done)) : I s' :=
  applyLoop_keeps next _ start ran

/-- The loop ends the process only at an entry that removes the server. -/
theorem applyLoop_error (next : ∀ s s' ety, I s → AppliedNext s s' ety → I s') (fuel : Nat)
    (start : I s) (ended : Server.applyLoop env fuel s = .error f) :
    ∃ t ety, I t ∧ t.entryFromIdx (t.lastAppliedIdx + 1) = some ety ∧
      ety.type = .removeNode t.me ∧
      f = ⟨.exit, { t with
        lastAppliedIdx := t.lastAppliedIdx + 1
        calls := t.calls ++ [.applylog ety t.lastAppliedIdx] }⟩ := by
  induction fuel generalizing s with
  | zero => cases ended
  | succ fuel ih =>
    rw [Server.applyLoop] at ended
    split at ended
    · split at ended
      · rename_i f' ended'
        cases ended
        obtain ⟨ety, found, removes, exits⟩ := raftApplyEntry_error ended'
        exact ⟨s, ety, start, found, removes, exits⟩
      · cases ended
      · rename_i s₁ applied
        obtain ⟨ety, one⟩ := raftApplyEntry_spec applied
        exact ih (next s s₁ ety start one) ended
    · cases ended

/-! ## The commit index -/

variable {idx : Int}

theorem setCommitIdx_ok (ran : s.setCommitIdx idx = .ok s') :
    s' = { s with commitIdx := idx } ∧ s.commitIdx ≤ idx ∧ idx ≤ s.currentIdx := by
  unfold Server.setCommitIdx at ran
  split at ran
  · rename_i up
    split at ran
    · rename_i inside
      cases ran
      exact ⟨rfl, up, inside⟩
    · cases ran
  · cases ran

/-- A failed assertion leaves the server as it was. -/
theorem setCommitIdx_error (failed : s.setCommitIdx idx = .error f) : f.server = s := by
  unfold Server.setCommitIdx at failed
  split at failed
  · split at failed
    · cases failed
    · cases failed; rfl
  · cases failed; rfl

/-- `s'` is `s` with a commit index that may have moved up, inside the log. -/
structure Commits (s s' : Server ι α) : Prop where
  core : s' = { s with commitIdx := s'.commitIdx }
  moves : s'.commitIdx = s.commitIdx ∨ s.commitIdx ≤ s'.commitIdx ∧ s'.commitIdx ≤ s.currentIdx

theorem setCommitIdx_commits (ran : s.setCommitIdx idx = .ok s') : Commits s s' := by
  obtain ⟨rfl, up, inside⟩ := setCommitIdx_ok ran
  exact ⟨rfl, Or.inr ⟨up, inside⟩⟩

variable {point : Int}

theorem advanceCommit_commits (ran : s.advanceCommit point = .ok s') : Commits s s' := by
  unfold Server.advanceCommit at ran
  simp only at ran
  split at ran
  · exact setCommitIdx_commits ran
  · cases ran
    exact ⟨rfl, Or.inl rfl⟩

variable {ae : MsgAppendentries ι α}

theorem followCommit_commits (ran : s.followCommit ae = .ok s') : Commits s s' := by
  unfold Server.followCommit at ran
  split at ran
  · exact setCommitIdx_commits ran
  · cases ran
    exact ⟨rfl, Or.inl rfl⟩

theorem advanceCommit_error (failed : s.advanceCommit point = .error f) : f.server = s := by
  unfold Server.advanceCommit at failed
  simp only at failed
  split at failed
  · exact setCommitIdx_error failed
  · cases failed

theorem followCommit_error (failed : s.followCommit ae = .error f) : f.server = s := by
  unfold Server.followCommit at failed
  split at failed
  · exact setCommitIdx_error failed
  · cases failed

end Apply

/-! ## Received entries -/

section Receive

set_option linter.unusedSectionVars false

variable [DecidableEq ι]

/-- The first `i` entries of a message are in the log, by their terms. -/
def Server.Present (s : Server ι α) (es : List (Entry ι α)) (idx : Int) (i : Nat) : Prop :=
  ∀ k e, k < i → es[k]? = some e → ∃ x, s.entryFromIdx (idx + k) = some x ∧ x.term = e.term

/-- The entry of a message at `i` conflicts with the log. -/
def Server.Conflict (s : Server ι α) (es : List (Entry ι α)) (idx : Int) (i : Nat) : Prop :=
  ∃ e x, es[i]? = some e ∧ s.entryFromIdx (idx + i) = some x ∧ x.term ≠ e.term

theorem Server.Present.zero (s : Server ι α) (es : List (Entry ι α)) (idx : Int) :
    s.Present es idx 0 := by
  intro k e low
  omega

variable {s : Server ι α} {i : Nat}

theorem Server.Present.cons {e : Entry ι α} {es : List (Entry ι α)} {idx : Int} {x : Entry ι α}
    (found : s.entryFromIdx idx = some x) (same : x.term = e.term)
    (rest : s.Present es (idx + 1) i) : s.Present (e :: es) idx (i + 1) := by
  intro k y low at_
  cases k with
  | zero =>
    simp only [List.getElem?_cons_zero, Option.some.injEq] at at_
    subst at_
    exact ⟨x, by simpa using found, same⟩
  | succ k =>
    rw [List.getElem?_cons_succ] at at_
    obtain ⟨x', found', same'⟩ := rest k y (by omega) at_
    have shift : idx + 1 + (k : Int) = idx + ((k + 1 : Nat) : Int) := by omega
    exact ⟨x', shift ▸ found', same'⟩

/-- How the scan of a message's entries ends. -/
inductive ScanOutcome (s : Server ι α) (es : List (Entry ι α)) (idx : Int) :
    Except (Fault ι α) (Server ι α × List (Entry ι α)) → Prop where
  | keep (i : Nat) (short : i ≤ es.length) (present : s.Present es idx i)
      (missing : i < es.length → s.entryFromIdx (idx + i) = none) :
      ScanOutcome s es idx (.ok (s, es.drop i))
  | cut (i : Nat) (short : i ≤ es.length) (present : s.Present es idx i)
      (conflict : s.Conflict es idx i) (above : s.commitIdx < idx + i) :
      ScanOutcome s es idx (.ok (s.truncate (idx + i), es.drop i))
  | fault (i : Nat) (short : i ≤ es.length) (present : s.Present es idx i)
      (conflict : s.Conflict es idx i) (below : idx + i ≤ s.commitIdx) :
      ScanOutcome s es idx (.error ⟨.assertion 498, s⟩)

theorem scanEntries_spec (s : Server ι α) (es : List (Entry ι α)) (idx : Int) :
    ScanOutcome s es idx (s.scanEntries es idx) := by
  induction es generalizing idx with
  | nil => exact .keep 0 (le_refl _) (.zero s [] idx) (fun low => absurd low (by simp))
  | cons e es ih =>
    rw [Server.scanEntries]
    have here : ∀ {x}, s.entryFromIdx idx = some x → x.term ≠ e.term →
        s.Conflict (e :: es) idx 0 :=
      fun {x} found differ => ⟨e, x, rfl, by simpa using found, differ⟩
    have zero : idx + ((0 : Nat) : Int) = idx := by omega
    split
    · rename_i missing
      exact .keep 0 (Nat.zero_le _) (.zero s _ idx) (fun _ => by simpa using missing)
    · rename_i x found
      by_cases differ : x.term ≠ e.term
      · rw [if_pos differ]
        split
        · rename_i above
          have cut := ScanOutcome.cut (s := s) 0 (Nat.zero_le _) (.zero s (e :: es) idx)
            (here found differ) (by omega)
          rwa [zero] at cut
        · exact .fault 0 (Nat.zero_le _) (.zero s _ idx) (here found differ) (by omega)
      · rw [if_neg differ]
        have same : x.term = e.term := not_not.mp differ
        have shift : ∀ i : Nat, idx + 1 + (i : Int) = idx + ((i + 1 : Nat) : Int) := by omega
        have conflict : ∀ {i}, s.Conflict es (idx + 1) i → s.Conflict (e :: es) idx (i + 1) := by
          rintro i ⟨e', x', at_, found', differ'⟩
          exact ⟨e', x', by rwa [List.getElem?_cons_succ], shift i ▸ found', differ'⟩
        have rest := ih (idx + 1)
        generalize s.scanEntries es (idx + 1) = r at rest
        cases rest with
        | keep i short present missing =>
          exact .keep (i + 1) (by simpa using short) (.cons found same present)
            (fun low => shift i ▸ missing (by simpa using low))
        | cut i short present conflicts above =>
          rw [shift i]
          exact .cut (i + 1) (by simpa using short) (.cons found same present)
            (conflict conflicts) (shift i ▸ above)
        | fault i short present conflicts below =>
          exact .fault (i + 1) (by simpa using short) (.cons found same present)
            (conflict conflicts) (shift i ▸ below)

/-- The first index a message removes from the log, and the number of its entries that are
already there. -/
structure Scan (s : Server ι α) (ae : MsgAppendentries ι α) (i : Nat) (cut : Option Int) :
    Prop where
  short : i ≤ ae.entries.length
  present : s.Present ae.entries (ae.prevLogIdx + 1) i
  keeps : cut = none →
    (ae.entries = [] → 0 < ae.prevLogIdx → s.currentIdx ≤ ae.prevLogIdx + 1) ∧
    (i < ae.entries.length → s.entryFromIdx (ae.prevLogIdx + 1 + i) = none)
  cuts : ∀ idx, cut = some idx → s.commitIdx < idx ∧
    (ae.entries = [] ∧ 0 < ae.prevLogIdx ∧ idx = ae.prevLogIdx + 1 ∧ idx < s.currentIdx ∨
      idx = ae.prevLogIdx + 1 + i ∧ s.Conflict ae.entries (ae.prevLogIdx + 1) i)

/-- The log after the cut. -/
def Server.cutAt (s : Server ι α) : Option Int → Server ι α
  | none => s
  | some idx => s.truncate idx

/-- A cut is above the commit index and inside the log. -/
theorem Scan.cut_inside {s : Server ι α} {ae : MsgAppendentries ι α} {i : Nat} {idx : Int}
    (scan : Scan s ae i (some idx)) : s.commitIdx < idx ∧ idx ≤ s.log.back := by
  obtain ⟨above, empty | ⟨rfl, e, x, -, found, -⟩⟩ := scan.cuts idx rfl
  · exact ⟨above, le_of_lt empty.2.2.2⟩
  · exact ⟨above, (logGetAtIdx_bounds found).2⟩

/-- The server after the entries of an accepted message were taken. -/
def Server.taken (s : Server ι α) (ae : MsgAppendentries ι α) (i : Nat) (cut : Option Int) :
    Server ι α :=
  (s.cutAt cut).acceptEntries ae (ae.entries.drop i)

/-- How `raft_recv_appendentries` ends once the previous entry was checked. -/
inductive AcceptOutcome (s : Server ι α) (node : Option ι) (ae : MsgAppendentries ι α) :
    Except (Fault ι α) (Server ι α × MsgAppendentriesResponse) → Prop where
  | accept (i : Nat) (cut : Option Int) (scan : Scan s ae i cut) (s' : Server ι α)
      (committed : (s.taken ae i cut).followCommit ae = .ok s') :
      AcceptOutcome s node ae (.ok ({ s' with currentLeader := node }, s'.acceptReply ae))
  | commitFault (i : Nat) (cut : Option Int) (scan : Scan s ae i cut) (f : Fault ι α)
      (ended : (s.taken ae i cut).followCommit ae = .error f) :
      AcceptOutcome s node ae (.error f)
  | emptyFault (empty : ae.entries = []) (pos : 0 < ae.prevLogIdx)
      (long : ae.prevLogIdx + 1 < s.currentIdx) (below : ae.prevLogIdx + 1 ≤ s.commitIdx) :
      AcceptOutcome s node ae (.error ⟨.assertion 480, s⟩)
  | scanFault (i : Nat) (present : s.Present ae.entries (ae.prevLogIdx + 1) i)
      (conflict : s.Conflict ae.entries (ae.prevLogIdx + 1) i)
      (below : ae.prevLogIdx + 1 + i ≤ s.commitIdx) :
      AcceptOutcome s node ae (.error ⟨.assertion 498, s⟩)

variable {ae : MsgAppendentries ι α}

theorem AcceptOutcome.finish {cut : Option Int} (scan : Scan s ae i cut) (node : Option ι) :
    AcceptOutcome s node ae ((s.taken ae i cut).aeFinish node ae) := by
  unfold Server.aeFinish
  cases result : (s.taken ae i cut).followCommit ae with
  | ok s' => exact .accept i cut scan s' result
  | error f => exact .commitFault i cut scan f result

theorem aeAccept_empty {node : Option ι} (empty : ae.entries = []) :
    AcceptOutcome s node ae (s.aeAccept node ae) := by
  have present : s.Present ae.entries (ae.prevLogIdx + 1) 0 := .zero s _ _
  have scanned : ∀ t : Server ι α, t.scanEntries ae.entries (ae.prevLogIdx + 1) =
      .ok (t, ae.entries.drop 0) := by
    intro t
    rw [empty]
    rfl
  unfold Server.aeAccept
  by_cases long : 0 < ae.prevLogIdx ∧ ae.prevLogIdx + 1 < s.currentIdx
  · rw [Server.cutEmpty, if_pos ⟨empty, long⟩]
    by_cases above : s.commitIdx < ae.prevLogIdx + 1
    · rw [if_pos above]
      simp only [scanned]
      have scan : Scan s ae 0 (some (ae.prevLogIdx + 1)) := by
        refine ⟨Nat.zero_le _, present, (fun none_ => by cases none_), fun idx cut => ?_⟩
        cases cut
        exact ⟨above, Or.inl ⟨empty, long.1, rfl, long.2⟩⟩
      exact .finish scan node
    · rw [if_neg above]
      exact .emptyFault empty long.1 long.2 (by omega)
  · rw [Server.cutEmpty, if_neg fun both => long both.2]
    simp only [scanned]
    have scan : Scan s ae 0 none := by
      refine ⟨Nat.zero_le _, present, fun _ => ⟨fun _ pos => ?_, fun low => ?_⟩,
        fun idx cut => by cases cut⟩
      · by_contra beyond
        exact long ⟨pos, by omega⟩
      · simp [empty] at low
    exact .finish scan node

theorem aeAccept_spec (s : Server ι α) (node : Option ι) (ae : MsgAppendentries ι α) :
    AcceptOutcome s node ae (s.aeAccept node ae) := by
  by_cases empty : ae.entries = []
  · exact aeAccept_empty empty
  · unfold Server.aeAccept
    rw [Server.cutEmpty, if_neg fun both => empty both.1]
    simp only
    have outcome := scanEntries_spec s ae.entries (ae.prevLogIdx + 1)
    generalize s.scanEntries ae.entries (ae.prevLogIdx + 1) = r at outcome
    cases outcome with
    | keep i short present missing =>
      have scan : Scan s ae i none :=
        ⟨short, present, fun _ => ⟨fun nil => absurd nil empty, missing⟩,
          fun idx cut => by cases cut⟩
      exact .finish scan node
    | cut i short present conflict above =>
      have scan : Scan s ae i (some (ae.prevLogIdx + 1 + i)) := by
        refine ⟨short, present, (fun none_ => by cases none_), fun idx cut => ?_⟩
        cases cut
        exact ⟨above, Or.inr ⟨rfl, conflict⟩⟩
      exact .finish scan node
    | fault i short present conflict below => exact .scanFault i present conflict below

/-- What `accept_entries` writes: the entries from number `i` on, and the packets of those before
them. -/
theorem acceptEntries_spec (s : Server ι α) (short : i ≤ ae.entries.length) :
    ∃ s₁, Appended s s₁
        (stampFrom s.cycloneIsLeader s.prevEntry s.log.back (ae.entries.drop i)) ∧
      s.acceptEntries ae (ae.entries.drop i) =
        { s₁ with
          calls := s₁.calls ++ (ae.entries.take i).map Callback.logPoll
          votingCfgChangeLogIdx := Server.noteVotingCfgChange (ae.entries.drop i)
            (ae.prevLogIdx + 1 + i) s₁.votingCfgChangeLogIdx } := by
  have count : ae.entries.length - (ae.entries.drop i).length = i := by
    rw [List.length_drop]
    omega
  unfold Server.acceptEntries
  simp only [count]
  by_cases none_ : ae.entries.drop i = []
  · refine ⟨s, ⟨?_, rfl, ?_, ?_, id⟩, by rw [if_pos none_]⟩
    · simp [none_, stampFrom, offers, Server.applyCfg]
    · simp [none_, stampFrom]
    · simp [none_, stampFrom]
  · exact ⟨_, raftAppendEntryBatch_spec s _, by rw [if_neg none_]⟩

/-! ## The whole handler -/

/-- The server after it took over the term of a message not of an earlier one. -/
def Server.adopted (s : Server ι α) (ae : MsgAppendentries ι α) : Server ι α :=
  if s.currentTerm < ae.term then ((s.heard ae).setCurrentTerm ae.term).becomeFollower
  else if s.state = .candidate then (s.heard ae).becomeFollower
  else s.heard ae

/-- The entry before those of a message is there with its term, where it is compared. -/
def Server.HoldsPrev (s : Server ι α) (ae : MsgAppendentries ι α) : Prop :=
  0 < ae.prevLogIdx → s.logBase ≤ ae.prevLogIdx →
    ∃ e, s.entryFromIdx ae.prevLogIdx = some e ∧ e.term = ae.prevLogTerm

/-- How `raft_recv_appendentries` ends. -/
inductive AeOutcome (s : Server ι α) (source : ι) (ae : MsgAppendentries ι α) :
    Except (Fault ι α) (Server ι α × MsgAppendentriesResponse) → Prop where
  | exits (behind : ae.prevLogTerm = -1) : AeOutcome s source ae (.error ⟨.exit, s.heard ae⟩)
  | stale (older : ae.term < s.currentTerm) :
      AeOutcome s source ae (.ok ((s.heard ae).failAt s.currentIdx))
  | unvoting (later : s.currentTerm < ae.term) (silent : s.selfVoting ≠ some true) :
      AeOutcome s source ae (.error ⟨.undefined, s.adopted ae⟩)
  | missing (current : s.currentTerm ≤ ae.term) (pos : 0 < ae.prevLogIdx)
      (absent : s.entryFromIdx ae.prevLogIdx = none) :
      AeOutcome s source ae (.ok ((s.adopted ae).failAt s.currentIdx))
  | conflict (present : ae.prevLogTerm ≠ -1) (current : s.currentTerm ≤ ae.term)
      (pos : 0 < ae.prevLogIdx) (e : Entry ι α)
      (found : s.entryFromIdx ae.prevLogIdx = some e) (differ : e.term ≠ ae.prevLogTerm)
      (above : s.commitIdx < ae.prevLogIdx) :
      AeOutcome s source ae
        (.ok (((s.adopted ae).truncate ae.prevLogIdx).failAt (ae.prevLogIdx - 1)))
  | conflictFault (present : ae.prevLogTerm ≠ -1) (current : s.currentTerm ≤ ae.term)
      (pos : 0 < ae.prevLogIdx) (e : Entry ι α)
      (found : s.entryFromIdx ae.prevLogIdx = some e) (differ : e.term ≠ ae.prevLogTerm)
      (below : ae.prevLogIdx ≤ s.commitIdx) :
      AeOutcome s source ae (.error ⟨.assertion 463, s.adopted ae⟩)
  | checked (present : ae.prevLogTerm ≠ -1) (current : s.currentTerm ≤ ae.term)
      (agrees : s.HoldsPrev ae)
      {r : Except (Fault ι α) (Server ι α × MsgAppendentriesResponse)}
      (outcome : AcceptOutcome (s.adopted ae) ((s.getNode source).map (·.id)) ae r) :
      AeOutcome s source ae r

theorem heard_core (s : Server ι α) (ae : MsgAppendentries ι α) :
    s.heard ae = { s with timeoutElapsed := (s.heard ae).timeoutElapsed } := by
  unfold Server.heard
  split <;> rfl

theorem sent_heard (who : ι → Prop) (s : Server ι α) (ae : MsgAppendentries ι α) :
    Sent who s (s.heard ae) := by
  rw [heard_core]
  exact ⟨rfl, rfl, [], by simp, by simp⟩

theorem quiet_adopted (s : Server ι α) (ae : MsgAppendentries ι α) : Quiet s (s.adopted ae) := by
  have heard := (sent_heard (fun _ => True) s ae).quiet
  unfold Server.adopted
  split
  · exact (heard.trans (quiet_setCurrentTerm _ _)).trans (quiet_becomeFollower _)
  · split
    · exact heard.trans (quiet_becomeFollower _)
    · exact heard

theorem aeCheckPrev_spec (source : ι) (present : ae.prevLogTerm ≠ -1)
    (current : s.currentTerm ≤ ae.term) :
    AeOutcome s source ae ((s.adopted ae).aeCheckPrev ((s.getNode source).map (·.id)) ae) := by
  have quiet := quiet_adopted s ae
  have entries : ∀ k, (s.adopted ae).entryFromIdx k = s.entryFromIdx k := fun k => by
    rw [Server.entryFromIdx, quiet.log]
    rfl
  have back : (s.adopted ae).currentIdx = s.currentIdx := by
    rw [Server.currentIdx, quiet.log]
    rfl
  unfold Server.aeCheckPrev
  rw [entries, back, quiet.logBase, quiet.commitIdx]
  by_cases checks : 0 < ae.prevLogIdx ∧ s.logBase ≤ ae.prevLogIdx
  · rw [if_pos checks]
    cases found : s.entryFromIdx ae.prevLogIdx with
    | none => exact .missing current checks.1 found
    | some e =>
      have inside : ¬ s.currentIdx < ae.prevLogIdx := by
        have := (logGetAtIdx_bounds found).2
        simp only [Server.currentIdx, logGetCurrentIdx]
        omega
      simp only
      rw [if_neg inside]
      by_cases differ : e.term ≠ ae.prevLogTerm
      · rw [if_pos differ]
        by_cases above : s.commitIdx < ae.prevLogIdx
        · rw [if_pos above]
          exact .conflict present current checks.1 e found differ above
        · rw [if_neg above]
          exact .conflictFault present current checks.1 e found differ (by omega)
      · rw [if_neg differ]
        exact .checked present current (fun _ _ => ⟨e, found, not_not.mp differ⟩)
          (aeAccept_spec _ _ ae)
  · rw [if_neg checks]
    exact .checked present current (fun pos base => absurd ⟨pos, base⟩ checks) (aeAccept_spec _ _ ae)

theorem raftRecvAppendentries_spec (s : Server ι α) (source : ι) (ae : MsgAppendentries ι α) :
    AeOutcome s source ae (s.raftRecvAppendentries source ae) := by
  have term : (s.heard ae).currentTerm = s.currentTerm := by rw [heard_core]
  have state : (s.heard ae).state = s.state := by rw [heard_core]
  unfold Server.raftRecvAppendentries
  simp only [term, state]
  by_cases behind : ae.prevLogTerm = -1
  · rw [if_pos behind]
    exact .exits behind
  · rw [if_neg behind]
    by_cases candidate : s.state = .candidate ∧ s.currentTerm = ae.term
    · rw [if_pos candidate]
      have adopted : s.adopted ae = (s.heard ae).becomeFollower := by
        rw [Server.adopted, if_neg (by omega), if_pos candidate.1]
      rw [← adopted]
      exact aeCheckPrev_spec source behind (by omega)
    · rw [if_neg candidate]
      by_cases later : s.currentTerm < ae.term
      · have adopted : s.adopted ae = ((s.heard ae).setCurrentTerm ae.term).becomeFollower := by
          rw [Server.adopted, if_pos later]
        rw [if_pos later, ← adopted]
        have voting : (s.adopted ae).selfVoting = s.selfVoting := by
          rw [adopted, setCurrentTerm_of_lt (by omega), heard_core]
          rfl
        rw [voting]
        split
        · exact aeCheckPrev_spec source behind (by omega)
        · rename_i silent
          exact .unvoting later silent
      · rw [if_neg later]
        by_cases older : ae.term < s.currentTerm
        · rw [if_pos older]
          have back : (s.heard ae).currentIdx = s.currentIdx := by rw [heard_core]; rfl
          rw [back]
          exact .stale older
        · rw [if_neg older]
          have adopted : s.adopted ae = s.heard ae := by
            rw [Server.adopted, if_neg later, if_neg fun c => candidate ⟨c, by omega⟩]
          rw [← adopted]
          exact aeCheckPrev_spec source behind (by omega)

end Receive

end Cyclone.Raft
