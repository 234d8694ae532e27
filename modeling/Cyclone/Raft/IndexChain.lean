/-
# Raft.IndexChain — the cursors of one server

`0 ≤ front ≤ last_applied_idx ≤ commit_idx ≤ back` with `count = back - front`, whatever
is called with whatever contents.  `IndexChain` carries with it the history that
explains the cursors: `applylog` was called once for each index up to
`last_applied_idx`, in order, with the entry the log still has there, and no
compaction released an entry before it was applied.

Every action of a call `Advances` the chain: it keeps it and moves `commit_idx` and
`last_applied_idx` only up.  So does a call, which is a sequence of actions.
-/
import Cyclone.Raft.Actions
import Cyclone.Theory.Prefix

namespace Cyclone.Raft

open Cyclone.Theory (Path ok_of_map)

set_option autoImplicit false

variable {ι α : Type}

/-- The calls of `applylog`, each with its entry and index. -/
def appliedOf (cs : List (Callback ι α)) : List (Entry ι α × Int) :=
  cs.filterMap fun c =>
    match c with
    | .applylog ety idx => some (ety, idx)
    | _ => none

/-- Callbacks that neither apply nor release an entry. -/
def Callback.inert : Callback ι α → Bool
  | .applylog _ _ => false
  | .logPollBatch _ _ => false
  | _ => true

theorem appliedOf_append (cs cs' : List (Callback ι α)) :
    appliedOf (cs ++ cs') = appliedOf cs ++ appliedOf cs' :=
  List.filterMap_append

variable {cs : List (Callback ι α)}

theorem appliedOf_inert (inert : ∀ c ∈ cs, c.inert = true) : appliedOf cs = [] := by
  unfold appliedOf
  rw [List.filterMap_eq_nil_iff]
  intro c member
  have := inert c member
  cases c <;> first | rfl | cases this

/-- In the order of the calls, with `k` entries applied before them: what is released was applied
before. -/
def ReleasesApplied : Nat → List (Callback ι α) → Prop
  | _, [] => True
  | k, .applylog _ _ :: cs => ReleasesApplied (k + 1) cs
  | k, .logPollBatch etys idx :: cs => idx + etys.length ≤ k ∧ ReleasesApplied k cs
  | k, _ :: cs => ReleasesApplied k cs

theorem releasesApplied_append (k : Nat) (cs cs' : List (Callback ι α)) :
    ReleasesApplied k (cs ++ cs') ↔
      ReleasesApplied k cs ∧ ReleasesApplied (k + (appliedOf cs).length) cs' := by
  induction cs generalizing k with
  | nil => simp [ReleasesApplied, appliedOf]
  | cons c cs ih =>
    cases c <;> simp [ReleasesApplied, appliedOf, ih, and_assoc]
    simp [Nat.add_assoc, Nat.add_comm 1]

theorem releasesApplied_inert {k : Nat} (inert : ∀ c ∈ cs, c.inert = true) :
    ReleasesApplied k cs := by
  induction cs with
  | nil => trivial
  | cons c cs ih =>
    have rest := ih fun x later => inert x (List.mem_cons_of_mem c later)
    have here := inert c List.mem_cons_self
    cases c <;> first | exact rest | cases here

/-- The entries of a log prefix with their 0-based indices. -/
def indexed (es : List (Entry ι α)) : List (Entry ι α × Int) :=
  es.zipIdx.map fun p => (p.1, (p.2 : Int))

theorem indexed_snoc (es : List (Entry ι α)) (e : Entry ι α) :
    indexed (es ++ [e]) = indexed es ++ [(e, (es.length : Int))] := by
  simp [indexed, List.zipIdx_append]

theorem mem_indexed {l : List (Entry ι α)} {e : Entry ι α} {idx : Int} :
    (e, idx) ∈ indexed l ↔ ∃ k : Nat, idx = k ∧ l[k]? = some e := by
  simp only [indexed, List.mem_map, Prod.mk.injEq, Prod.exists, List.mem_zipIdx_iff_getElem?]
  constructor
  · rintro ⟨x, k, at_, rfl, rfl⟩
    exact ⟨k, rfl, at_⟩
  · rintro ⟨k, rfl, at_⟩
    exact ⟨e, k, at_, rfl, rfl⟩

theorem prefix_of_indexed {es es' : List (Entry ι α)} (pre : indexed es <+: indexed es') :
    es <+: es' := by
  have firsts := pre.map Prod.fst
  simpa [indexed, List.map_map, Function.comp_def] using firsts

theorem indexed_take (es : List (Entry ι α)) (k : Nat) :
    indexed (es.take k) = (indexed es).take k := by
  refine List.ext_getElem? fun i => ?_
  simp only [indexed, List.getElem?_map, List.getElem?_zipIdx, List.getElem?_take]
  split <;> rfl

/-- The cursors of a server, and the calls that moved them. -/
structure IndexChain (s : Server ι α) : Prop where
  wf : s.log.Wf
  front_le : s.log.front ≤ s.lastAppliedIdx
  applied_le : s.lastAppliedIdx ≤ s.commitIdx
  commit_le : s.commitIdx ≤ s.log.back
  compacted : s.lastCompactedIdx = s.log.front
  base_le : s.logBase ≤ s.lastAppliedIdx
  target_pos : 1 ≤ s.logTarget
  trace : appliedOf s.calls = indexed (s.log.entries.take s.lastAppliedIdx.toNat)
  released : ReleasesApplied 0 s.calls
  retains : s.log.front = 0 ∨ s.log.front < s.lastAppliedIdx

/-- From `s` to `s'` the chain is kept and moves only up. -/
def Advances (s s' : Server ι α) : Prop :=
  IndexChain s → IndexChain s' ∧ s.commitIdx ≤ s'.commitIdx ∧ s.lastAppliedIdx ≤ s'.lastAppliedIdx

theorem Advances.refl (s : Server ι α) : Advances s s :=
  fun chain => ⟨chain, le_refl _, le_refl _⟩

theorem Advances.trans {s s' s'' : Server ι α} (first : Advances s s') (second : Advances s' s'') :
    Advances s s'' := by
  intro chain
  obtain ⟨chain', commit, applied⟩ := first chain
  obtain ⟨chain'', commit', applied'⟩ := second chain'
  exact ⟨chain'', commit.trans commit', applied.trans applied'⟩

/-! ## The operations -/

section Operations

set_option linter.unusedSectionVars false

variable {s s' : Server ι α}

/-- Nothing of the chain is touched. -/
theorem advances_of_same (log : s'.log = s.log) (commit : s'.commitIdx = s.commitIdx)
    (applied : s'.lastAppliedIdx = s.lastAppliedIdx) (base : s'.logBase = s.logBase)
    (compacted : s'.lastCompactedIdx = s.lastCompactedIdx) (target : s'.logTarget = s.logTarget)
    (calls : ∃ cs, s'.calls = s.calls ++ cs ∧ ∀ c ∈ cs, c.inert = true) : Advances s s' := by
  intro chain
  obtain ⟨cs, extended, inert⟩ := calls
  refine ⟨⟨log ▸ chain.wf, ?_, ?_, ?_, ?_, ?_, ?_, ?_, ?_, ?_⟩, by rw [commit], by rw [applied]⟩
  · rw [log, applied]; exact chain.front_le
  · rw [applied, commit]; exact chain.applied_le
  · rw [commit, log]; exact chain.commit_le
  · rw [compacted, log]; exact chain.compacted
  · rw [base, applied]; exact chain.base_le
  · rw [target]; exact chain.target_pos
  · rw [extended, appliedOf_append, appliedOf_inert inert, List.append_nil, chain.trace, log, applied]
  · rw [extended, releasesApplied_append]
    exact ⟨chain.released, releasesApplied_inert inert⟩
  · rw [log, applied]; exact chain.retains

theorem Quiet.advances (quiet : Quiet s s') : Advances s s' := by
  obtain ⟨cs, calls, outward⟩ := quiet.calls
  refine advances_of_same quiet.log quiet.commitIdx quiet.lastAppliedIdx quiet.logBase
    quiet.lastCompactedIdx quiet.logTarget ⟨cs, calls, fun c member => ?_⟩
  have := outward c member
  cases c <;> first | rfl | cases this

theorem advances_voting (s : Server ι α) (idx : Int) :
    Advances s { s with votingCfgChangeLogIdx := idx } :=
  advances_of_same rfl rfl rfl rfl rfl rfl ⟨[], by simp, by simp⟩

variable {idx : Int}

/-- The commit index may go anywhere from where it is up to the end of the log. -/
theorem advances_commit (up : s.commitIdx ≤ idx) (inside : idx ≤ s.log.back) :
    Advances s { s with commitIdx := idx } := by
  intro chain
  exact ⟨{ chain with applied_le := chain.applied_le.trans up, commit_le := inside }, up, le_refl _⟩

theorem Commits.advances (commits : Commits s s') : Advances s s' := by
  rw [commits.core]
  rcases commits.moves with same | ⟨up, inside⟩
  · rw [same]
    exact Advances.refl s
  · exact advances_commit up inside

/-- A log base within what is applied. -/
theorem advances_logBase {base : Int} (bound : base ≤ s.lastAppliedIdx) :
    Advances s { s with logBase := base } :=
  fun chain => ⟨{ chain with base_le := bound }, le_refl _, le_refl _⟩

variable [DecidableEq ι]

theorem advances_raftCheckpoint (s : Server ι α) (logIndex : Int) :
    Advances s (s.raftCheckpoint logIndex) := by
  unfold Server.raftCheckpoint
  apply advances_logBase
  split <;> omega

theorem offers_inert (idx : Int) (es : List (Entry ι α)) : ∀ c ∈ offers idx es, c.inert = true := by
  induction es generalizing idx with
  | nil => simp [offers]
  | cons e es ih =>
    intro c member
    rcases List.mem_cons.mp member with rfl | later
    · rfl
    · exact ih (idx + 1) c later

theorem Appended.advances {es : List (Entry ι α)} (appended : Appended s s' es) :
    Advances s s' := by
  intro chain
  obtain ⟨front, back, entries, keeps⟩ := appended.grown
  have core := appended.core
  rw [applyCfg_core] at core
  have applied : s'.lastAppliedIdx = s.lastAppliedIdx := by rw [core]
  have commit : s'.commitIdx = s.commitIdx := by rw [core]
  have length := chain.wf.length_eq
  have low := chain.applied_le
  have high := chain.commit_le
  refine ⟨⟨keeps chain.wf, ?_, ?_, ?_, ?_, ?_, ?_, ?_, ?_, ?_⟩, by rw [commit], by rw [applied]⟩
  · rw [front, applied]; exact chain.front_le
  · rw [applied, commit]; exact low
  · rw [commit, back]; omega
  · rw [front, ← chain.compacted, core]
  · rw [applied, show s'.logBase = s.logBase by rw [core]]; exact chain.base_le
  · rw [show s'.logTarget = s.logTarget by rw [core]]; exact chain.target_pos
  · have calls : s'.calls = s.calls ++ offers s.log.back es := by rw [core]
    rw [calls, appliedOf_append, appliedOf_inert (offers_inert _ _), List.append_nil, chain.trace,
      applied, entries, List.take_append_of_le_length (by omega)]
  · have calls : s'.calls = s.calls ++ offers s.log.back es := by rw [core]
    rw [calls, releasesApplied_append]
    exact ⟨chain.released, releasesApplied_inert (offers_inert _ _)⟩
  · rw [front, applied]; exact chain.retains

/-- A cut above the commit index. -/
theorem advances_truncate (above : s.commitIdx < idx) (inside : idx ≤ s.log.back) :
    Advances s (s.truncate idx) := by
  intro chain
  have front := chain.front_le
  have low := chain.applied_le
  have cut := logDelete_log chain.wf (show s.log.front < idx by omega) inside
  have pops : ∀ c ∈ (logDelete s.log idx).2.map (fun p => Callback.logPop p.1 p.2),
      c.inert = true := by
    intro c member
    obtain ⟨p, -, rfl⟩ := List.mem_map.mp member
    rfl
  refine ⟨⟨logDelete_wf chain.wf (by omega) inside, ?_, low, ?_, ?_, chain.base_le,
    chain.target_pos, ?_, ?_, ?_⟩, le_refl _, le_refl _⟩
  · change (logDelete s.log idx).1.front ≤ s.lastAppliedIdx
    rw [cut]
    exact front
  · change s.commitIdx ≤ (logDelete s.log idx).1.back
    rw [cut]
    simp only
    omega
  · change s.lastCompactedIdx = (logDelete s.log idx).1.front
    rw [cut]
    exact chain.compacted
  · change appliedOf (s.calls ++ _) = indexed ((logDelete s.log idx).1.entries.take _)
    rw [appliedOf_append, appliedOf_inert pops, List.append_nil, chain.trace, cut, List.take_take]
    congr 2
    change s.lastAppliedIdx.toNat = min s.lastAppliedIdx.toNat (idx - 1).toNat
    omega
  · change ReleasesApplied 0 (s.calls ++ _)
    rw [releasesApplied_append]
    exact ⟨chain.released, releasesApplied_inert pops⟩
  · change (logDelete s.log idx).1.front = 0 ∨ (logDelete s.log idx).1.front < s.lastAppliedIdx
    rw [cut]
    exact chain.retains

/-- The calls of a release apply nothing. -/
theorem appliedOf_polls (polls : List (List (Entry ι α) × Int)) :
    appliedOf (polls.map fun p => (Callback.logPollBatch p.1 p.2 : Callback ι α)) = [] := by
  unfold appliedOf
  rw [List.filterMap_eq_nil_iff]
  intro c member
  obtain ⟨p, -, rfl⟩ := List.mem_map.mp member
  rfl

theorem releasesApplied_polls {k : Nat} {polls : List (List (Entry ι α) × Int)}
    (bound : ∀ p ∈ polls, p.2 + p.1.length ≤ k) :
    ReleasesApplied k (polls.map fun p => (Callback.logPollBatch p.1 p.2 : Callback ι α)) := by
  induction polls with
  | nil => trivial
  | cons p polls ih =>
    exact ⟨bound p List.mem_cons_self, ih fun q later => bound q (List.mem_cons_of_mem p later)⟩

/-- The newest entry of a log that has any is retained. -/
theorem IndexChain.newest (chain : IndexChain s) (some_ : 0 < s.log.back) :
    ∃ e, s.entryFromIdx s.log.back = some e := by
  have low := chain.applied_le
  have high := chain.commit_le
  refine chain.wf.getAtIdx_exists ?_ (le_refl _)
  rcases chain.retains with all | above <;> omega

/-- As many entries were applied as the cursor says. -/
theorem IndexChain.applied_length (chain : IndexChain s) :
    (appliedOf s.calls).length = s.lastAppliedIdx.toNat := by
  have length := chain.wf.length_eq
  have low := chain.applied_le
  have high := chain.commit_le
  rw [chain.trace, indexed, List.length_map, List.length_zipIdx, List.length_take_of_le (by omega)]

/-- What compaction releases is in the log. -/
theorem IndexChain.compacts (chain : IndexChain s)
    (enough : ¬ s.logBase ≤ s.lastCompactedIdx + 2 * s.logTarget) :
    s.lastCompactedIdx + s.logTarget - s.lastCompactedIdx = s.logTarget ∧ s.logTarget ≤ s.log.count := by
  have base := chain.base_le
  have target := chain.target_pos
  have compacted := chain.compacted
  have count := chain.wf.count_eq
  have low := chain.applied_le
  have high := chain.commit_le
  omega

theorem advances_compactLog (s : Server ι α) : Advances s s.compactLog := by
  unfold Server.compactLog
  split
  · exact Advances.refl s
  · rename_i enough
    intro chain
    have base := chain.base_le
    have target := chain.target_pos
    have compacted := chain.compacted
    have count := chain.wf.count_eq
    have low := chain.applied_le
    have high := chain.commit_le
    have front := chain.wf.front_nonneg
    obtain ⟨cnt, fits⟩ := chain.compacts enough
    simp only [cnt]
    rw [logPollBatch_eq fits]
    have released : ∀ p ∈ logPolled s.log s.logTarget, p.2 + p.1.length ≤ s.lastAppliedIdx := by
      intro p polled
      have := mem_logPolled chain.wf (by omega) fits polled
      omega
    refine ⟨⟨⟨chain.wf.size_pos, ?_, ?_, ?_, chain.wf.length_eq⟩, ?_, low, high, ?_, base, target,
      ?_, ?_, ?_⟩, le_refl _, le_refl _⟩
    · simp only; omega
    · simp only; omega
    · simp only; omega
    · simp only; omega
    · simp only; omega
    · rw [← chain.trace, appliedOf_append, appliedOf_polls, List.append_nil]
    · rw [releasesApplied_append]
      refine ⟨chain.released, releasesApplied_polls fun p polled => ?_⟩
      rw [chain.applied_length]
      have := released p polled
      omega
    · right
      simp only
      omega

/-- Applying the next entry. -/
theorem AppliedNext.advances {ety : Entry ι α} (next : AppliedNext s s' ety) : Advances s s' := by
  intro chain
  obtain ⟨behind, found, base, core⟩ := next
  have wf := chain.wf
  have low := chain.applied_le
  have high := chain.commit_le
  have front := chain.front_le
  have nonneg := wf.front_nonneg
  have length := wf.length_eq
  have log : s'.log = s.log := by rw [core]
  have applied : s'.lastAppliedIdx = s.lastAppliedIdx + 1 := by rw [core]
  have commit : s'.commitIdx = s.commitIdx := by rw [core]
  have calls : s'.calls = s.calls ++ [.applylog ety s.lastAppliedIdx] := by rw [core]
  refine ⟨⟨log ▸ wf, ?_, ?_, ?_, ?_, ?_, ?_, ?_, ?_, ?_⟩, by rw [commit], by rw [applied]; omega⟩
  · rw [log, applied]; omega
  · rw [applied, commit]; omega
  · rw [commit, log]; exact high
  · rw [log, ← chain.compacted, core]
  · have := chain.base_le
    rw [applied]
    omega
  · rw [show s'.logTarget = s.logTarget by rw [core]]; exact chain.target_pos
  · have at_ := wf.getAtIdx_some found
    have place : (s.lastAppliedIdx + 1 - 1).toNat = s.lastAppliedIdx.toNat := by omega
    have grown : (s.lastAppliedIdx + 1).toNat = s.lastAppliedIdx.toNat + 1 := by omega
    rw [place] at at_
    rw [calls, appliedOf_append, chain.trace, log, applied, grown,
      Theory.take_succ_of_getElem? at_, indexed_snoc, List.length_take_of_le (by omega)]
    simp only [appliedOf, List.filterMap_cons, List.filterMap_nil]
    rw [Int.toNat_of_nonneg (by omega)]
  · rw [calls, releasesApplied_append]
    exact ⟨chain.released, trivial⟩
  · have := chain.retains
    rw [log, applied]
    omega

end Operations

/-! ## The actions of a call -/

section Calls

variable [DecidableEq ι] {env : Env α} {input : Input ι α} {s s' : Server ι α}

variable {ae : MsgAppendentries ι α} {i : Nat} {cut : Option Int}

theorem advances_cutAt (scan : Scan s ae i cut) : Advances s (s.cutAt cut) := by
  cases cut with
  | none => exact Advances.refl s
  | some idx =>
    obtain ⟨above, inside⟩ := scan.cut_inside
    exact advances_truncate above inside

theorem advances_acceptEntries (s : Server ι α) (ae : MsgAppendentries ι α)
    (fresh : List (Entry ι α)) : Advances s (s.acceptEntries ae fresh) := by
  have appended : Advances s (if fresh = [] then s else s.raftAppendEntryBatch fresh) := by
    split
    · exact Advances.refl s
    · exact (raftAppendEntryBatch_spec s fresh).advances
  refine appended.trans (advances_of_same rfl rfl rfl rfl rfl rfl ⟨_, rfl, fun c member => ?_⟩)
  obtain ⟨e, -, rfl⟩ := List.mem_map.mp member
  rfl

theorem advances_taken (scan : Scan s ae i cut) : Advances s (s.taken ae i cut) :=
  (advances_cutAt scan).trans (advances_acceptEntries _ ae _)

theorem advances_updNode (s : Server ι α) (id : ι) (f : Node ι → Node ι) :
    Advances s (s.updNode id f) :=
  advances_of_same rfl rfl rfl rfl rfl rfl ⟨[], by simp [Server.updNode], by simp⟩

theorem Light.advances (act : Light env input s s') : Advances s s' := by
  cases act with
  | sent sent => exact sent.quiet.advances
  | hint => exact advances_of_same rfl rfl rfl rfl rfl rfl ⟨[], by simp, by simp⟩
  | raise => exact ((quiet_setCurrentTerm s _).trans (quiet_becomeFollower _)).advances
  | giveUp => exact (quiet_becomeFollower s).advances
  | stand => exact (quiet_raftBecomeCandidate env s).advances
  | vote =>
    refine advances_of_same rfl rfl rfl rfl rfl rfl ⟨_, rfl, ?_⟩
    simp [Callback.inert]
  | flag => exact advances_updNode s _ _
  | win => exact (quiet_raftBecomeLeader env s).advances
  | alone => exact (quiet_raftBecomeLeader env s).advances
  | matched => exact advances_updNode s _ _
  | sufficient => exact advances_updNode s _ _
  | advance advanced => exact (advanceCommit_commits advanced).advances
  | follow _ followed => exact (followCommit_commits followed).advances
  | apply next => exact next.advances
  | checkpoint => exact advances_raftCheckpoint s _
  | compact => exact advances_compactLog s

/-- A leader's append: a lone node commits at once. -/
theorem Submitted.advances {es : List (MsgEntry ι α)} {early : Int} {s₁ s₂ : Server ι α}
    (submitted : Submitted s s' es early s₁ s₂) : Advances s s' := by
  have written : Advances s s₂ := ((advances_voting s early).trans submitted.appended.advances).trans
    submitted.sent.quiet.advances
  rw [submitted.ends]
  intro chain
  obtain ⟨chain₂, commit, applied⟩ := written chain
  have whole : s₂.commitIdx ≤ if s₂.nodes.length = 1 then s₂.currentIdx else s₂.commitIdx := by
    split
    · exact chain₂.commit_le
    · exact le_refl _
  have inside : (if s₂.nodes.length = 1 then s₂.currentIdx else s₂.commitIdx) ≤ s₂.log.back := by
    split
    · exact le_refl _
    · exact chain₂.commit_le
  obtain ⟨chain', commit', applied'⟩ :=
    (advances_commit whole inside).trans (advances_voting _ s'.votingCfgChangeLogIdx) chain₂
  exact ⟨chain', commit.trans commit', applied.trans applied'⟩

theorem Writes.advances (act : Writes env input s s') : Advances s s' := by
  cases act with
  | submit _ submitted => exact submitted.advances
  | cut _ _ found _ above => exact advances_truncate above (logGetAtIdx_bounds found).2
  | take _ _ _ scan => exact advances_taken scan

end Calls

/-! ## Runs -/

section Runs

set_option linter.unusedSectionVars false

variable [DecidableEq ι]

variable {s : Server ι α}

theorem Course.advances {env : Env α} {input : Input ι α} {s' : Server ι α}
    (course : Course env input s s') : Advances s s' :=
  course.keeps (I := fun t => Advances s t)
    (fun _ _ kept act => kept.trans act.advances) (fun _ _ kept _ act => kept.trans act.advances)
    (Advances.refl s)

theorem advances_step {s' : Server ι α} {l : Env α × Input ι α} (taken : s.step l = some s') :
    Advances s s' :=
  (step_course taken).advances

/-- Nothing has happened yet. -/
structure Fresh (s : Server ι α) : Prop where
  log : s.log = logNew
  commitIdx : s.commitIdx = 0
  lastAppliedIdx : s.lastAppliedIdx = 0
  logBase : s.logBase = 0
  lastCompactedIdx : s.lastCompactedIdx = 0
  calls : s.calls = []
  target : 1 ≤ s.logTarget

variable {cfg : Config}

theorem Fresh.raftNew (me : ι) (replicas : Nat) (target : 1 ≤ cfg.logTarget) :
    Fresh (Server.raftNew me replicas cfg : Server ι α) :=
  ⟨rfl, rfl, rfl, rfl, rfl, rfl, target⟩

theorem Fresh.raftAddNode (fresh : Fresh s) (id : ι) (isSelf : Bool) :
    Fresh (s.raftAddNode id isSelf) := by
  rw [raftAddNode_core]
  exact ⟨fresh.log, fresh.commitIdx, fresh.lastAppliedIdx, fresh.logBase, fresh.lastCompactedIdx,
    fresh.calls, fresh.target⟩

theorem Fresh.raftAddNonVotingNode (fresh : Fresh s) (id : ι) (isSelf : Bool) :
    Fresh (s.raftAddNonVotingNode id isSelf) := by
  have added := fresh.raftAddNode id isSelf
  exact ⟨added.log, added.commitIdx, added.lastAppliedIdx, added.logBase, added.lastCompactedIdx,
    added.calls, added.target⟩

theorem boot_fresh (me : ι) (replicas : Nat) (active : List ι) (target : 1 ≤ cfg.logTarget) :
    Fresh (Server.boot me replicas cfg active : Server ι α) := by
  have fresh := List.foldlRecOn (motive := Fresh) active _ (Fresh.raftNew me replicas target)
    fun (s : Server ι α) fresh id _ => fresh.raftAddNode id (id = me)
  unfold Server.boot
  simp only
  split
  · exact fresh
  · exact fresh.raftAddNonVotingNode me true

theorem Fresh.indexChain (fresh : Fresh s) : IndexChain s := by
  obtain ⟨log, commit, applied, base, compacted, calls, target⟩ := fresh
  refine ⟨log ▸ logNew_wf, ?_, ?_, ?_, ?_, ?_, target, ?_, ?_, ?_⟩
  · rw [log, applied]; exact le_refl _
  · rw [applied, commit]
  · rw [commit, log]; exact le_refl _
  · rw [compacted, log]; rfl
  · rw [base, applied]
  · rw [calls, applied]; rfl
  · rw [calls]; trivial
  · rw [log]; exact Or.inl rfl

/-- The calls of the library: a batch has at least one entry. -/
def Admissible (_ : Server ι α) (l : Env α × Input ι α) : Prop := l.2 ≠ .recvEntryBatch []

theorem advances_run {s' : Server ι α} (run : Path Server.step Admissible s s') : Advances s s' :=
  run.keeps (I := fun t => Advances s t) (Advances.refl s)
    (fun _ _ _ kept _ taken => kept.trans (advances_step taken))

theorem indexed_snd (es : List (Entry ι α)) :
    (indexed es).map Prod.snd = (List.range es.length).map Int.ofNat := by
  rw [List.range_eq_range', ← List.zipIdx_map_snd 0 es, indexed, List.map_map, List.map_map]
  rfl

instance [DecidableEq α] (s : Server ι α) (l : Env α × Input ι α) : Decidable (Admissible s l) :=
  inferInstanceAs (Decidable (l.2 ≠ .recvEntryBatch []))

end Runs

end Cyclone.Raft
