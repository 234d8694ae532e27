/-
# Raft.Membership — the node list and the configuration entries of the log

A configuration entry takes effect when it is offered to the log (`handle_cfg_change`), not when it
is committed, so the node list should be the initial membership with the configuration entries
of the log replayed over it.  `Membership` is that abstract view, a voting flag for each
member, and `Replays m s` says that the server `s` is in step with it.

Two things of the source put the list out of step.  `log_pop` undoes no configuration change, so a
truncated entry leaves its effect behind (`membership_follows_log_fails`), and `raft_remove_node`
drops the last node when it is given none.  A run that cuts off normal entries only and
removes members only stays in step (`membership_follows_log`).
-/
import Cyclone.Raft.IndexChain
import Cyclone.Theory.Keyed

namespace Cyclone.Raft

open Relation
open Cyclone.Theory (Path exec anyStep view view_congr view_snoc view_write view_erase view_eq_none)

set_option autoImplicit false

variable {ι α : Type} [DecidableEq ι]

set_option linter.unusedSectionVars false

/-! ## Memberships -/

/-- The voting flag of each member. -/
abbrev Membership (ι : Type) : Type := ι → Option Bool

namespace Membership

/-- What a configuration entry does; removing a node that is no member does nothing. -/
def change (m : Membership ι) : LogType ι → Membership ι
  | .normal => m
  | .addNonvotingNode id => Function.update m id (some false)
  | .addNode id => Function.update m id (some true)
  | .removeNode id => Function.update m id none

/-- The membership after the entries of these types, in log order. -/
def replay (m : Membership ι) (types : List (LogType ι)) : Membership ι :=
  types.foldl change m

/-- `P` holds of each entry in the membership the entries before it leave. -/
def Along (P : Membership ι → LogType ι → Prop) : Membership ι → List (LogType ι) → Prop
  | _, [] => True
  | m, type :: types => P m type ∧ Along P (m.change type) types

instance instDecidableAlong {P : Membership ι → LogType ι → Prop}
    [∀ m type, Decidable (P m type)] : ∀ m types, Decidable (Along P m types)
  | _, [] => isTrue trivial
  | m, type :: types =>
    have := instDecidableAlong (P := P) (m.change type) types
    inferInstanceAs (Decidable (P m type ∧ Along P (m.change type) types))

variable {m : Membership ι} {P : Membership ι → LogType ι → Prop}

theorem replay_append (m : Membership ι) (types types' : List (LogType ι)) :
    m.replay (types ++ types') = (m.replay types).replay types' :=
  List.foldl_append

variable {types : List (LogType ι)}

theorem replay_normal (m : Membership ι) (normal : ∀ type ∈ types, type = .normal) :
    m.replay types = m := by
  induction types with
  | nil => rfl
  | cons type types ih =>
    change (m.change type).replay types = m
    rw [normal type List.mem_cons_self]
    exact ih fun type later => normal type (List.mem_cons_of_mem _ later)

theorem along_append {types' : List (LogType ι)} :
    Along P m (types ++ types') ↔ Along P m types ∧ Along P (m.replay types) types' := by
  induction types generalizing m with
  | nil => simp [Along, replay]
  | cons type types ih =>
    simp only [List.cons_append, Along, ih, and_assoc]
    rfl

/-- An entry that removes a node finds it. -/
def Removes (m : Membership ι) : LogType ι → Prop
  | .removeNode id => m id ≠ none
  | _ => True

instance : ∀ (m : Membership ι) (type : LogType ι), Decidable (m.Removes type)
  | m, .removeNode id => inferInstanceAs (Decidable (m id ≠ none))
  | _, .normal | _, .addNonvotingNode _ | _, .addNode _ => isTrue trivial

end Membership

/-! ## The node list -/

/-- The membership the node list holds. -/
def Server.membership (s : Server ι α) : Membership ι := view Node.id Node.voting s.nodes

/-- No node is in the list twice. -/
def Server.DistinctNodes (s : Server ι α) : Prop := (s.nodes.map Node.id).Nodup

section Nodes

variable {s s' : Server ι α}

theorem membership_of_members (same : s'.nodes.map Node.member = s.nodes.map Node.member) :
    s'.membership = s.membership :=
  view_congr same

theorem distinct_of_members (same : s'.nodes.map Node.member = s.nodes.map Node.member)
    (distinct : s.DistinctNodes) : s'.DistinctNodes := by
  have ids := congrArg (List.map Prod.fst) same
  simp only [List.map_map] at ids
  exact (congrArg List.Nodup ids).mpr distinct

variable {id : ι}

theorem getNode_none (absent : s.getNode id = none) : id ∉ s.nodes.map Node.id := by
  have unseen : s.membership id = none := by
    change (s.getNode id).map Node.voting = none
    rw [absent]
    rfl
  exact view_eq_none.mp unseen

variable {nd : Node ι}

theorem getNode_some (found : s.getNode id = some nd) : id ∈ s.nodes.map Node.id := by
  obtain ⟨member, rfl⟩ := mem_of_getNode found
  exact List.mem_map_of_mem member

variable {f : Node ι → Node ι}

/-- A write of a voting flag. -/
theorem updNode_membership {voting : Bool} (keys : ∀ nd, (f nd).id = nd.id)
    (flags : ∀ nd, (f nd).voting = voting) (present : id ∈ s.nodes.map Node.id) :
    (s.updNode id f).membership = Function.update s.membership id (some voting) :=
  view_write keys flags present

theorem updNode_distinct (keys : ∀ nd, (f nd).id = nd.id) (distinct : s.DistinctNodes) :
    (s.updNode id f).DistinctNodes := by
  unfold Server.DistinctNodes
  rw [map_updNode keys id]
  exact distinct

theorem raftAddNode_membership (distinct : s.DistinctNodes) (id : ι) (isSelf : Bool) :
    (s.raftAddNode id isSelf).DistinctNodes ∧
      (s.raftAddNode id isSelf).membership = Function.update s.membership id (some true) := by
  unfold Server.raftAddNode
  cases found : s.getNode id with
  | some nd =>
    exact ⟨updNode_distinct (fun _ => rfl) distinct,
      updNode_membership (fun _ => rfl) (fun _ => rfl) (getNode_some found)⟩
  | none =>
    have unseen := getNode_none found
    constructor
    · change ((s.nodes ++ [nodeNew id]).map Node.id).Nodup
      rw [List.map_append, List.nodup_append]
      refine ⟨distinct, List.nodup_singleton _, ?_⟩
      intro id' old id'' new same
      obtain rfl : id'' = id := by simpa [nodeNew] using new
      exact unseen (same ▸ old)
    · exact view_snoc unseen

theorem raftAddNonVotingNode_membership (distinct : s.DistinctNodes) (id : ι) (isSelf : Bool) :
    (s.raftAddNonVotingNode id isSelf).DistinctNodes ∧
      (s.raftAddNonVotingNode id isSelf).membership =
        Function.update s.membership id (some false) := by
  obtain ⟨added, voter⟩ := raftAddNode_membership distinct id isSelf
  have present : id ∈ (s.raftAddNode id isSelf).nodes.map Node.id := by
    by_contra absent
    have none_ : (s.raftAddNode id isSelf).membership id = none := view_eq_none.mpr absent
    rw [voter, Function.update_self] at none_
    cases none_
  let f : Node ι → Node ι := fun nd =>
    ((nd.setVoting false).setNextIdx s.votingCfgChangeLogIdx).setMatchIdx 0
  refine ⟨updNode_distinct (f := f) (fun _ => rfl) added, ?_⟩
  have written : (s.raftAddNonVotingNode id isSelf).membership =
      Function.update (s.raftAddNode id isSelf).membership id (some false) :=
    updNode_membership (f := f) (fun _ => rfl) (fun _ => rfl) present
  rw [written, voter, Function.update_idem]

theorem raftRemoveNode_membership (distinct : s.DistinctNodes) (found : s.getNode id = some nd) :
    (s.raftRemoveNode (some nd)).DistinctNodes ∧
      (s.raftRemoveNode (some nd)).membership = Function.update s.membership id none := by
  obtain ⟨-, rfl⟩ := mem_of_getNode found
  constructor
  · exact distinct.sublist (List.eraseP_sublist.map Node.id)
  · exact view_erase distinct nd.id

theorem handleCfgChange_membership (distinct : s.DistinctNodes) {type : LogType ι}
    (removes : s.membership.Removes type) :
    (s.handleCfgChange type).DistinctNodes ∧
      (s.handleCfgChange type).membership = s.membership.change type := by
  cases type with
  | normal => exact ⟨distinct, rfl⟩
  | addNonvotingNode id => exact raftAddNonVotingNode_membership distinct id _
  | addNode id => exact raftAddNode_membership distinct id _
  | removeNode id =>
    cases found : s.getNode id with
    | none =>
      refine absurd ?_ removes
      change (s.getNode id).map Node.voting = none
      rw [found]
      rfl
    | some nd =>
      simp only [Server.handleCfgChange, found]
      exact raftRemoveNode_membership distinct found

/-- The offers of an append replay its entries, as long as they remove members only. -/
theorem applyCfg_membership (distinct : s.DistinctNodes) {es : List (Entry ι α)}
    (removes : s.membership.Along Membership.Removes (es.map Entry.type)) :
    (s.applyCfg es).DistinctNodes ∧
      (s.applyCfg es).membership = s.membership.replay (es.map Entry.type) := by
  induction es generalizing s with
  | nil => exact ⟨distinct, rfl⟩
  | cons e es ih =>
    obtain ⟨first, rest⟩ := removes
    obtain ⟨distinct', changed⟩ := handleCfgChange_membership distinct first
    rw [← changed] at rest
    obtain ⟨distinct'', replayed⟩ := ih distinct' rest
    refine ⟨distinct'', replayed.trans ?_⟩
    rw [changed]
    rfl

end Nodes

/-! ## In step with the log -/

/-- The node list is the membership `m` with the configuration entries of the log replayed. -/
structure Replays (m : Membership ι) (s : Server ι α) : Prop where
  distinct : s.DistinctNodes
  follows : s.membership = m.replay (s.log.entries.map Entry.type)

/-- From `idx` on the log has normal entries only. -/
def Server.NormalFrom (s : Server ι α) (idx : Int) : Prop :=
  ∀ e ∈ s.log.entries.drop (idx - 1).toNat, e.type = .normal

instance (s : Server ι α) (idx : Int) : Decidable (s.NormalFrom idx) :=
  inferInstanceAs (Decidable (∀ e ∈ s.log.entries.drop (idx - 1).toNat, e.type = .normal))

namespace Replays

variable {m : Membership ι} {s s' : Server ι α}

theorem of_frame (replays : Replays m s) (entries : s'.log.entries = s.log.entries)
    (members : s'.nodes.map Node.member = s.nodes.map Node.member) : Replays m s' := by
  refine ⟨distinct_of_members members replays.distinct, ?_⟩
  rw [membership_of_members members, entries]
  exact replays.follows

theorem lights {env : Env α} {input : Input ι α} (replays : Replays m s)
    (acts : ReflTransGen (Light env input) s s') : Replays m s' := by
  refine Course.lights (I := Replays m) ?_ acts replays
  intro v w kept act
  rcases act.kinds with calm | ⟨ety, next⟩ | ⟨-, rfl⟩
  · exact kept.of_frame calm.entries calm.members
  · rw [next.core]
    exact ⟨kept.distinct, kept.follows⟩
  · rw [compactLog_core]
    exact ⟨kept.distinct, kept.follows⟩

theorem append {es : List (Entry ι α)} (replays : Replays m s) (appended : Appended s s' es)
    (removes : s.membership.Along Membership.Removes (es.map Entry.type)) : Replays m s' := by
  obtain ⟨distinct, replayed⟩ := applyCfg_membership replays.distinct removes
  have nodes : s'.nodes = (s.applyCfg es).nodes := by rw [appended.core]
  refine ⟨by rwa [Server.DistinctNodes, nodes], ?_⟩
  rw [appended.grown.entries_eq, List.map_append, Membership.replay_append, ← replays.follows,
    ← replayed, Server.membership, nodes]
  rfl

/-- A cut that drops normal entries only. -/
theorem truncate {idx : Int} (replays : Replays m s) (chain : IndexChain s)
    (above : s.commitIdx < idx) (inside : idx ≤ s.log.back) (normal : s.NormalFrom idx) :
    Replays m (s.truncate idx) := by
  have front := chain.front_le
  have low := chain.applied_le
  refine ⟨replays.distinct, ?_⟩
  have kept : (s.truncate idx).log.entries = s.log.entries.take (idx - 1).toNat := by
    change (logDelete s.log idx).1.entries = _
    rw [logDelete_log chain.wf (by omega) inside]
  have whole := replays.follows
  rw [← List.take_append_drop (idx - 1).toNat s.log.entries, List.map_append,
    Membership.replay_append, Membership.replay_normal] at whole
  · rw [kept]
    exact whole
  · intro type member
    obtain ⟨e, dropped, rfl⟩ := List.mem_map.mp member
    exact normal e dropped

end Replays

/-! ## What a message brings -/

/-- The number of a message's leading entries the log has already, by their terms. -/
def Server.held (s : Server ι α) : List (Entry ι α) → Int → Nat
  | [], _ => 0
  | e :: es, idx => if (s.entryFromIdx idx).any (·.term = e.term) then s.held es (idx + 1) + 1 else 0

/-- The entries a message would append. -/
def Server.newEntries (s : Server ι α) (ae : MsgAppendentries ι α) : List (Entry ι α) :=
  ae.entries.drop (s.held ae.entries (ae.prevLogIdx + 1))

/-- The index of the first of them. -/
def Server.newIdx (s : Server ι α) (ae : MsgAppendentries ι α) : Int :=
  ae.prevLogIdx + 1 + s.held ae.entries (ae.prevLogIdx + 1)

section Held

variable {s t : Server ι α}

variable {i : Nat}

theorem held_eq {es : List (Entry ι α)} {idx : Int} (short : i ≤ es.length)
    (present : s.Present es idx i)
    (stops : ∀ e, es[i]? = some e → (s.entryFromIdx (idx + i)).any (·.term = e.term) = false) :
    s.held es idx = i := by
  induction es generalizing idx i with
  | nil =>
    simp only [List.length_nil, Nat.le_zero] at short
    rw [short]
    rfl
  | cons e es ih =>
    have zero : idx + ((0 : Nat) : Int) = idx := by omega
    unfold Server.held
    cases i with
    | zero =>
      have stop := stops e rfl
      rw [zero] at stop
      rw [stop]
      rfl
    | succ i =>
      obtain ⟨x, found, same⟩ := present 0 e (Nat.succ_pos i) rfl
      rw [zero] at found
      have shift : ∀ k : Nat, idx + 1 + (k : Int) = idx + ((k + 1 : Nat) : Int) := by omega
      rw [found, if_pos (by simpa using same)]
      congr 1
      refine ih (by simpa using short) ?_ ?_
      · intro k e' low at_
        rw [shift]
        exact present (k + 1) e' (by omega) at_
      · intro e' at_
        rw [shift]
        exact stops e' at_

variable {ae : MsgAppendentries ι α} {cut : Option Int}

/-- The scan of a message skips what the log has. -/
theorem Scan.held (scan : Scan s ae i cut) : s.held ae.entries (ae.prevLogIdx + 1) = i := by
  refine held_eq scan.short scan.present ?_
  intro e at_
  have low : i < ae.entries.length := (List.getElem?_eq_some_iff.mp at_).1
  cases cut with
  | none =>
    rw [(scan.keeps rfl).2 low]
    rfl
  | some idx =>
    obtain ⟨-, empty | ⟨-, e', x, at_', found, differ⟩⟩ := scan.cuts idx rfl
    · rw [empty.1] at low
      cases low
    · cases at_.symm.trans at_'
      rw [found]
      simpa using differ

theorem Scan.newEntries (scan : Scan s ae i cut) : s.newEntries ae = ae.entries.drop i := by
  rw [Server.newEntries, scan.held]

theorem Scan.newIdx (scan : Scan s ae i cut) : s.newIdx ae = ae.prevLogIdx + 1 + i := by
  rw [Server.newIdx, scan.held]

variable {input : Input ι α}

theorem Opens.held (opens : Opens input s t) (es : List (Entry ι α)) (idx : Int) :
    t.held es idx = s.held es idx := by
  induction es generalizing idx with
  | nil => rfl
  | cons e es ih =>
    unfold Server.held
    rw [opens.entryFromIdx, ih]

theorem Opens.newEntries (opens : Opens input s t) (ae : MsgAppendentries ι α) :
    t.newEntries ae = s.newEntries ae := by
  rw [Server.newEntries, opens.held]
  rfl

theorem Opens.newIdx (opens : Opens input s t) (ae : MsgAppendentries ι α) :
    t.newIdx ae = s.newIdx ae := by
  rw [Server.newIdx, opens.held]
  rfl

end Held

/-! ## The condition on a run -/

/-- A leader's message cuts off normal entries only: at its previous entry when that one is of
another term, or at the first of its new entries.  The nodes its new entries remove are members. -/
def Server.Overwrites (s : Server ι α) (ae : MsgAppendentries ι α) : Prop :=
  (0 < ae.prevLogIdx → s.commitIdx < ae.prevLogIdx →
      (s.entryFromIdx ae.prevLogIdx).any (·.term ≠ ae.prevLogTerm) → s.NormalFrom ae.prevLogIdx) ∧
    (ae.entries = [] ∧ 0 < ae.prevLogIdx ∨ s.newEntries ae ≠ [] → s.commitIdx < s.newIdx ae →
      s.NormalFrom (s.newIdx ae)) ∧
    s.membership.Along Membership.Removes ((s.newEntries ae).map Entry.type)

/-- A call that cuts off normal entries only, and removes members only. -/
def Follows (s : Server ι α) : Env α × Input ι α → Prop
  | (_, .recvEntry e) => s.state = .leader → s.membership.Along Membership.Removes [e.type]
  | (_, .recvEntryBatch es) =>
    s.state = .leader → s.membership.Along Membership.Removes (es.map MsgEntry.type)
  | (_, .recv _ (.appendentries ae)) => s.currentTerm ≤ ae.term → s.Overwrites ae
  | _ => True

instance [DecidableEq α] (s : Server ι α) (ae : MsgAppendentries ι α) :
    Decidable (s.Overwrites ae) :=
  inferInstanceAs (Decidable (_ ∧ _ ∧ _))

instance [DecidableEq α] (s : Server ι α) : ∀ l : Env α × Input ι α, Decidable (Follows s l)
  | (_, .recvEntry _) | (_, .recvEntryBatch _) | (_, .recv _ (.appendentries _)) =>
    inferInstanceAs (Decidable (_ → _))
  | (_, .recv _ (.requestvote _)) | (_, .recv _ (.requestvoteResponse _))
  | (_, .recv _ (.appendentriesResponse _)) | (_, .periodic _) | (_, .checkpoint _) => isTrue trivial

/-! ## The writes of a call -/

section Step

variable {m : Membership ι} {env : Env α} {input : Input ι α} {s s' t : Server ι α}

theorem entryOf_types (term : Int) (es : List (MsgEntry ι α)) :
    (es.map (Server.entryOf term)).map Entry.type = es.map MsgEntry.type := by
  rw [List.map_map]
  rfl

theorem stampFrom_types (isLeader : Bool) (prev : Option (Entry ι α)) (idx : Int)
    (es : List (Entry ι α)) : (stampFrom isLeader prev idx es).map Entry.type = es.map Entry.type :=
  stampFrom_map (fun _ _ _ => rfl) prev idx es

theorem Replays.submitted {es : List (MsgEntry ι α)} {early : Int} {s₁ s₂ : Server ι α}
    (replays : Replays m s) (submitted : Submitted s s' es early s₁ s₂)
    (removes : s.membership.Along Membership.Removes (es.map MsgEntry.type)) : Replays m s' := by
  have appended : Replays m s₁ := by
    have noted : Replays m { s with votingCfgChangeLogIdx := early } :=
      ⟨replays.distinct, replays.follows⟩
    refine noted.append submitted.appended ?_
    rw [stampFrom_types, entryOf_types]
    exact removes
  have sent := appended.of_frame (by rw [submitted.sent.log]) submitted.sent.members
  rw [submitted.ends]
  exact ⟨sent.distinct, sent.follows⟩

variable {ae : MsgAppendentries ι α}

theorem Replays.taken {i : Nat} {cut : Option Int} (replays : Replays m s) (chain : IndexChain s)
    (scan : Scan s ae i cut) (overwrites : s.Overwrites ae) : Replays m (s.taken ae i cut) := by
  obtain ⟨-, normal, removes⟩ := overwrites
  rw [scan.newEntries, scan.newIdx] at normal
  rw [scan.newEntries] at removes
  have shorter : Replays m (s.cutAt cut) := by
    cases cut with
    | none => exact replays
    | some idx =>
      obtain ⟨above, ⟨empty, pos, rfl, inside⟩ | ⟨rfl, e, x, at_, found, -⟩⟩ := scan.cuts idx rfl
      · have short := scan.short
        rw [empty, List.length_nil] at short
        have start : ae.prevLogIdx + 1 + (i : Int) = ae.prevLogIdx + 1 := by omega
        rw [start] at normal
        exact replays.truncate chain above (le_of_lt inside) (normal (Or.inl ⟨empty, pos⟩) above)
      · have some_ : ae.entries.drop i ≠ [] := by
          rw [Ne, List.drop_eq_nil_iff, not_le]
          exact (List.getElem?_eq_some_iff.mp at_).1
        exact replays.truncate chain above (logGetAtIdx_bounds found).2
          (normal (Or.inr some_) above)
  obtain ⟨s₁, appended, written⟩ := acceptEntries_spec (s.cutAt cut) scan.short
  have members : (s.cutAt cut).membership = s.membership := by cases cut <;> rfl
  have grown : Replays m s₁ := by
    refine shorter.append appended ?_
    rw [stampFrom_types, members]
    exact removes
  rw [Server.taken, written]
  exact ⟨grown.distinct, grown.follows⟩

/-- The condition, where the log comes to be written. -/
theorem overwrites_opens (opens : Opens input s t) (overwrites : s.Overwrites ae) :
    t.Overwrites ae := by
  have log := opens.quiet.log
  have normal : ∀ idx, s.NormalFrom idx → t.NormalFrom idx := by
    intro idx normal
    unfold Server.NormalFrom
    rw [log]
    exact normal
  obtain ⟨prev, new, removes⟩ := overwrites
  unfold Server.Overwrites
  rw [opens.entryFromIdx, opens.quiet.commitIdx, opens.newEntries, opens.newIdx,
    membership_of_members opens.quiet.members]
  exact ⟨fun pos above differ => normal _ (prev pos above differ),
    fun cuts above => normal _ (new cuts above), removes⟩

theorem Replays.write (replays : Replays m t) (chain : IndexChain t) (opens : Opens input s t)
    (good : Follows s (env, input)) (act : Writes env input t s') : Replays m s' := by
  have members := membership_of_members opens.quiet.members
  cases act with
  | @submit _ _ _ s₁ s₂ es early submits submitted =>
    have leader : (∀ source ae, input ≠ .recv source (.appendentries ae)) → s.state = .leader :=
      fun local_ => (opens.role local_).2 ▸ submitted.leader
    refine replays.submitted submitted ?_
    rw [members]
    obtain ⟨e, rfl, rfl⟩ | rfl | ⟨source, r, rfl, -, rfl⟩ := submits.source
    · exact good (leader fun _ _ same => by cases same)
    · exact good (leader fun _ _ same => by cases same)
    · exact ⟨trivial, trivial⟩
  | cut same pos found differ above =>
    obtain ⟨prev, -, -⟩ := overwrites_opens opens (good (same ▸ opens.term))
    refine replays.truncate chain above (logGetAtIdx_bounds found).2 (prev pos above ?_)
    rw [found]
    simpa using differ
  | take same _ _ scan =>
    exact replays.taken chain scan (overwrites_opens opens (good (same ▸ opens.term)))

theorem Replays.step {l : Env α × Input ι α} (replays : Replays m s) (chain : IndexChain s)
    (good : Follows s l) (taken : s.step l = some s') : Replays m s' := by
  cases step_course taken with
  | plays acts => exact replays.lights acts
  | writes opens before write after =>
    have chain' := Course.lights (I := fun t => IndexChain t)
      (fun _ _ chain act => (act.advances chain).1) before chain
    exact ((replays.lights before).write chain' opens good write).lights after

end Step

/-! ## Runs -/

theorem enrol_start (me : ι) (replicas : Nat) {cfg : Config} (members : List (ι × Bool))
    (target : 1 ≤ cfg.logTarget) :
    Fresh (Server.enrol me replicas cfg members : Server ι α) ∧
      (Server.enrol me replicas cfg members : Server ι α).DistinctNodes := by
  unfold Server.enrol
  apply List.foldlRecOn (motive := fun s : Server ι α => Fresh s ∧ s.DistinctNodes)
  · exact ⟨Fresh.raftNew me replicas target, List.nodup_nil⟩
  · rintro s ⟨fresh, distinct⟩ p -
    split
    · exact ⟨fresh.raftAddNode _ _, (raftAddNode_membership distinct _ _).1⟩
    · exact ⟨fresh.raftAddNonVotingNode _ _, (raftAddNonVotingNode_membership distinct _ _).1⟩

theorem replays_run {m : Membership ι} {s s' : Server ι α} (replays : Replays m s)
    (chain : IndexChain s) (run : Path Server.step Follows s s') :
    Replays m s' ∧ IndexChain s' :=
  run.keeps (I := fun t => Replays m t ∧ IndexChain t) ⟨replays, chain⟩
    (fun _ _ _ kept good taken =>
      ⟨kept.1.step kept.2 good taken, (advances_step taken kept.2).1⟩)

/-- **Membership follows the log.**  Along every run that cuts off normal entries only and removes
members only, the node list is the initial membership with the configuration entries of the log
replayed in order. -/
theorem membership_follows_log (me : ι) (replicas : Nat) (cfg : Config)
    (members : List (ι × Bool)) (target : 1 ≤ cfg.logTarget) {s : Server ι α}
    (run : Path Server.step Follows (Server.enrol me replicas cfg members) s) :
    s.DistinctNodes ∧
      s.membership = (Server.enrol me replicas cfg members : Server ι α).membership.replay
        (s.log.entries.map Entry.type) := by
  obtain ⟨fresh, distinct⟩ := enrol_start (α := α) me replicas members target
  have start : Replays (Server.enrol me replicas cfg members : Server ι α).membership
      (Server.enrol me replicas cfg members : Server ι α) := by
    refine ⟨distinct, ?_⟩
    rw [fresh.log]
    rfl
  obtain ⟨replays, -⟩ := replays_run start fresh.indexChain run
  exact ⟨replays.distinct, replays.follows⟩

/-- Five voters, seen from the second. -/
def fiveVoters : List (Fin 6 × Bool) := [(0, true), (1, true), (2, true), (3, true), (4, true)]

/-- A message of a leader whose entries are of its own term. -/
def appendMsg (source : Fin 6) (term prevLogIdx prevLogTerm : Int) (types : List (LogType (Fin 6))) :
    Env Nat × Input (Fin 6) Nat :=
  (quietEnv 0, .recv source (.appendentries
    { term := term, prevLogIdx := prevLogIdx, prevLogTerm := prevLogTerm, leaderCommit := 0
      entries := types.map fun type =>
        { term := term, id := 0, type := type, data := 0, head := ⟨prevLogIdx, prevLogTerm⟩ } }))

/-- A follower whose last entry, a normal one, is replaced by the leader of the next term, which
then removes the old leader. -/
theorem membership_follows_log_rewritten : ∃ s : Server (Fin 6) Nat,
    s.log.entries.map Entry.type = [.addNonvotingNode 5, .normal, .removeNode 0] ∧
    s.currentTerm = 2 ∧
    (s.DistinctNodes ∧
      s.membership = (Server.enrol 1 5 defaultCfg fiveVoters : Server (Fin 6) Nat).membership.replay
        (s.log.entries.map Entry.type)) := by
  have ran : ∃ s ∈ exec Server.step Follows (Server.enrol 1 5 defaultCfg fiveVoters)
      [appendMsg 0 1 0 0 [.addNonvotingNode 5, .normal], appendMsg 2 2 1 1 [.normal],
        appendMsg 2 2 2 2 [.removeNode 0]],
      s.log.entries.map Entry.type = [.addNonvotingNode 5, .normal, .removeNode 0] ∧
          s.currentTerm = 2 := by
    decide +kernel
  obtain ⟨s, run, types, term⟩ := Path.exists_of_exec ran
  exact ⟨s, types, term, membership_follows_log 1 5 defaultCfg fiveVoters (by decide) run⟩

/-- The entry that added a node is truncated by the leader of the next term; the node stays. -/
theorem membership_follows_log_fails : ∃ s : Server (Fin 6) Nat,
    Path Server.step anyStep (Server.enrol 1 5 defaultCfg fiveVoters) s ∧
    ¬ (s.DistinctNodes ∧
      s.membership = (Server.enrol 1 5 defaultCfg fiveVoters : Server (Fin 6) Nat).membership.replay
        (s.log.entries.map Entry.type)) := by
  have ran : ∃ s ∈ exec Server.step anyStep (Server.enrol 1 5 defaultCfg fiveVoters)
      [appendMsg 0 1 0 0 [.addNonvotingNode 5], appendMsg 2 2 0 0 [.normal]],
      s.membership 5 ≠ (Server.enrol 1 5 defaultCfg fiveVoters : Server (Fin 6) Nat).membership.replay
          (s.log.entries.map Entry.type) 5 := by
    decide +kernel
  obtain ⟨s, run, differ⟩ := Path.exists_of_exec ran
  exact ⟨s, run, fun ⟨_, same⟩ => differ (congrFun same 5)⟩

end Cyclone.Raft
