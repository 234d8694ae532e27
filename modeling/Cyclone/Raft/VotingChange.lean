/-
# Raft.VotingChange — one change of the quorum at a time

`voting_cfg_change_log_idx` is to be the index of the one entry of the log that changes who votes
and has not been applied yet.  The guard that keeps it so asks
`raft_entry_is_voting_cfg_change`, which knows ADD_NONVOTING_NODE and REMOVE_NODE but not ADD_NODE,
the entry that turns a node into a voter: two promotions can be under way at once, and neither
is noted (`one_voting_change_fails`).

`Tracks m s` is what the guard does keep: an unapplied entry it knows is at the noted
index, and no entry of the log promotes a node.  It is kept by every call that promotes nobody
and, when a leader's message brings changes, passes the guard that `raft_recv_entry_batch`
makes (`Guarded`).
-/
import Cyclone.Raft.Membership
import Mathlib.Data.Set.Basic

namespace Cyclone.Raft

open Relation
open Cyclone.Theory (Path exec anyStep)

set_option autoImplicit false

variable {ι α : Type} [DecidableEq ι]

/-! ## Changes of the quorum -/

namespace Membership

/-- The nodes that vote. -/
def voters (m : Membership ι) : Set ι := { id | m id = some true }

/-- The entry turns a node into a voter. -/
def Promotes (m : Membership ι) : LogType ι → Prop
  | .addNode id => m id ≠ some true
  | _ => False

/-- The entry changes the set of voting nodes. -/
def ChangesQuorum (m : Membership ι) : LogType ι → Prop
  | .normal => False
  | .addNonvotingNode id => m id = some true
  | .addNode id => m id ≠ some true
  | .removeNode id => m id = some true

instance : ∀ (m : Membership ι) (type : LogType ι), Decidable (m.Promotes type)
  | m, .addNode id => inferInstanceAs (Decidable (m id ≠ some true))
  | _, .normal | _, .addNonvotingNode _ | _, .removeNode _ => isFalse id

instance : ∀ (m : Membership ι) (type : LogType ι), Decidable (m.ChangesQuorum type)
  | _, .normal => isFalse id
  | m, .addNonvotingNode id => inferInstanceAs (Decidable (m id = some true))
  | m, .addNode id => inferInstanceAs (Decidable (m id ≠ some true))
  | m, .removeNode id => inferInstanceAs (Decidable (m id = some true))

variable {m : Membership ι}

variable {type : LogType ι}

theorem changesQuorum_iff : m.ChangesQuorum type ↔ (m.change type).voters ≠ m.voters := by
  have written : ∀ (id : ι) (v : Option Bool),
      voters (Function.update m id v) ≠ m.voters ↔ ¬ (v = some true ↔ m id = some true) := by
    intro id v
    rw [not_iff_not]
    constructor
    · intro same
      have here := Set.ext_iff.mp same id
      simpa [voters] using here
    · intro same
      ext id'
      by_cases here : id' = id
      · subst here
        simpa [voters] using same
      · simp [voters, Function.update_of_ne here]
  cases type with
  | normal => simp [ChangesQuorum, change]
  | addNonvotingNode id =>
    rw [change, written]
    simp [ChangesQuorum]
  | addNode id =>
    rw [change, written]
    simp [ChangesQuorum]
  | removeNode id =>
    rw [change, written]
    simp [ChangesQuorum]

variable {P : Membership ι → LogType ι → Prop} {types : List (LogType ι)}

/-- What holds along a list of entries holds at each of them. -/
theorem Along.at (along : m.Along P types) {k : Nat} (at_ : types[k]? = some type) :
    P (m.replay (types.take k)) type := by
  induction types generalizing m k with
  | nil => cases at_
  | cons type' types ih =>
    obtain ⟨first, rest⟩ := along
    cases k with
    | zero =>
      cases at_
      exact first
    | succ k => exact ih rest at_

theorem along_normal (trivially : ∀ m, P m .normal) (normal : ∀ type ∈ types, type = .normal) :
    m.Along P types := by
  induction types with
  | nil => trivial
  | cons type types ih =>
    rw [normal type List.mem_cons_self]
    exact ⟨trivially m, ih fun type later => normal type (List.mem_cons_of_mem _ later)⟩

end Membership

/-- No entry promotes a node. -/
def Membership.Settled (m : Membership ι) (types : List (LogType ι)) : Prop :=
  m.Along (fun m type => ¬ m.Promotes type) types

instance (m : Membership ι) (types : List (LogType ι)) : Decidable (m.Settled types) :=
  inferInstanceAs (Decidable (m.Along _ types))

/-- The entry at `idx` is in the log, changes the quorum and has not been applied; `m` is the
membership the log started from. -/
def Server.Pending (m : Membership ι) (s : Server ι α) (idx : Int) : Prop :=
  (1 ≤ idx ∧ s.lastAppliedIdx < idx) ∧
    ∃ e ∈ s.log.entries[(idx - 1).toNat]?,
      (m.replay ((s.log.entries.take (idx - 1).toNat).map Entry.type)).ChangesQuorum e.type

instance (m : Membership ι) (s : Server ι α) (idx : Int) : Decidable (s.Pending m idx) :=
  inferInstanceAs (Decidable (_ ∧ _))

/-! ## The two loops that note a change -/

section Detect

set_option linter.unusedSectionVars false

variable {es : List (Entry ι α)} {idx detected detected' : Int}

/-- What the guard returns: nothing changed, or the one change of the batch, with none before. -/
theorem detect_spec (pos : 0 ≤ idx)
    (found : Server.detectVotingCfgChange es idx detected = some detected') :
    (∀ k : Nat, (es.map Entry.isVotingCfgChange)[k]? = some true → detected' = idx + k) ∧
      (detected' = detected ∧ (∀ e ∈ es, e.isVotingCfgChange = false) ∨
        detected = -1 ∧ idx ≤ detected' ∧ detected' < idx + es.length) := by
  induction es generalizing idx detected with
  | nil =>
    cases found
    exact ⟨fun k at_ => by simp at at_, Or.inl ⟨rfl, fun e member => by cases member⟩⟩
  | cons e es ih =>
    rw [Server.detectVotingCfgChange] at found
    simp only [List.length_cons]
    by_cases change : e.isVotingCfgChange = true
    · rw [if_pos change] at found
      split at found
      · cases found
      · rename_i none_
        have none_ := not_not.mp none_
        obtain ⟨-, ⟨rfl, rest⟩ | ⟨absurd_, -⟩⟩ := ih (by omega) found
        · refine ⟨fun k at_ => ?_, Or.inr ⟨none_, le_refl _, by omega⟩⟩
          cases k with
          | zero => simp
          | succ k =>
            exfalso
            simp only [List.map_cons, List.getElem?_cons_succ, List.getElem?_map,
              Option.map_eq_some_iff] at at_
            obtain ⟨e', at_', change'⟩ := at_
            rw [rest e' (List.mem_of_getElem? at_')] at change'
            cases change'
        · omega
    · rw [if_neg change] at found
      obtain ⟨places, cases_⟩ := ih (by omega) found
      refine ⟨fun k at_ => ?_, ?_⟩
      · cases k with
        | zero => exact absurd (by simpa using at_) change
        | succ k =>
          rw [places k at_]
          omega
      · rcases cases_ with ⟨same, rest⟩ | ⟨none_, low, high⟩
        · refine Or.inl ⟨same, fun e' member => ?_⟩
          rcases List.mem_cons.mp member with rfl | later
          · simpa using change
          · exact rest e' later
        · exact Or.inr ⟨none_, by omega, by omega⟩

/-- Entries the guard does not know pass it. -/
theorem detect_none (none_ : ∀ e ∈ es, e.isVotingCfgChange = false) :
    Server.detectVotingCfgChange es idx detected = some detected := by
  induction es generalizing idx with
  | nil => rfl
  | cons e es ih =>
    rw [Server.detectVotingCfgChange, none_ e List.mem_cons_self]
    exact ih fun e' later => none_ e' (List.mem_cons_of_mem e later)

/-- A follower notes what the guard would have returned. -/
theorem note_of_detect (found : Server.detectVotingCfgChange es idx detected = some detected') :
    Server.noteVotingCfgChange es idx detected = detected' := by
  induction es generalizing idx detected with
  | nil => exact Option.some.inj found
  | cons e es ih =>
    rw [Server.detectVotingCfgChange] at found
    rw [Server.noteVotingCfgChange]
    split at found
    · rename_i change
      rw [if_pos change]
      split at found
      · cases found
      · exact ih found
    · rename_i other
      rw [if_neg other]
      exact ih found

end Detect

/-! ## What the guard keeps -/

/-- An unapplied entry the guard knows is at the noted index, and no entry promotes a node. -/
structure Tracks (m : Membership ι) (s : Server ι α) : Prop where
  noted : ∀ k : Nat, (s.log.entries.map Entry.isVotingCfgChange)[k]? = some true →
    s.lastAppliedIdx ≤ k → s.votingCfgChangeLogIdx = k + 1
  inside : s.votingCfgChangeLogIdx ≤ s.log.back
  settled : m.Settled (s.log.entries.map Entry.type)

namespace Tracks

variable {m : Membership ι} {s s' : Server ι α}

variable {idx : Int}

variable (tracks : Tracks m s)
include tracks

/-- A pending change of the quorum is the noted one. -/
theorem pending (change : s.Pending m idx) :
    s.votingCfgChangeLogIdx = idx := by
  obtain ⟨⟨pos, fresh⟩, e, at_, changes⟩ := change
  have at_ : s.log.entries[(idx - 1).toNat]? = some e := at_
  have known : e.isVotingCfgChange = true → s.votingCfgChangeLogIdx = idx := by
    intro known
    have place := tracks.noted (idx - 1).toNat (by rw [List.getElem?_map, at_, Option.map_some, known])
      (by omega)
    omega
  cases type : e.type with
  | normal =>
    rw [type] at changes
    exact changes.elim
  | addNonvotingNode id => exact known (by rw [Entry.isVotingCfgChange, type])
  | removeNode id => exact known (by rw [Entry.isVotingCfgChange, type])
  | addNode id =>
    have promotes := tracks.settled.at
      (show (s.log.entries.map Entry.type)[(idx - 1).toNat]? = some (.addNode id) by
        rw [List.getElem?_map, at_, Option.map_some, type])
    rw [← List.map_take] at promotes
    rw [type] at changes
    exact absurd changes promotes

theorem of_calm (calm : Calm s s') : Tracks m s' := by
  refine ⟨?_, ?_, ?_⟩
  · rw [calm.entries, calm.lastAppliedIdx, calm.votingCfgChangeLogIdx]
    exact tracks.noted
  · rw [calm.votingCfgChangeLogIdx, calm.back]
    exact tracks.inside
  · rw [calm.entries]
    exact tracks.settled

/-- An application forgets the noted index only when that entry is applied. -/
theorem applied {ety : Entry ι α} (chain : IndexChain s)
    (next : AppliedNext s s' ety) : Tracks m s' := by
  have length := chain.wf.length_eq
  have nonneg := chain.wf.front_nonneg
  have low := chain.applied_le
  have high := chain.commit_le
  have front := chain.front_le
  rw [next.core]
  refine ⟨fun k at_ fresh => ?_, ?_, tracks.settled⟩
  · simp only at fresh ⊢
    have place := tracks.noted k at_ (by omega)
    rw [if_neg (by omega)]
    exact place
  · simp only
    have inside := tracks.inside
    split <;> omega

theorem lights {env : Env α} {input : Input ι α} (chain : IndexChain s)
    (acts : ReflTransGen (Light env input) s s') : Tracks m s' ∧ IndexChain s' := by
  refine Course.lights (I := fun t => Tracks m t ∧ IndexChain t) ?_ acts ⟨tracks, chain⟩
  rintro v w ⟨kept, chain⟩ act
  refine ⟨?_, (act.advances chain).1⟩
  rcases act.kinds with calm | ⟨ety, next⟩ | ⟨-, rfl⟩
  · exact kept.of_calm calm
  · exact kept.applied chain next
  · rw [compactLog_core]
    exact ⟨kept.noted, kept.inside, kept.settled⟩

/-- An append that passes the guard. -/
theorem append {es : List (Entry ι α)} (chain : IndexChain s)
    (flags : s'.log.entries.map Entry.isVotingCfgChange =
      s.log.entries.map Entry.isVotingCfgChange ++ es.map Entry.isVotingCfgChange)
    (types : s'.log.entries.map Entry.type = s.log.entries.map Entry.type ++ es.map Entry.type)
    (back : s'.log.back = s.log.back + es.length)
    (applied : s'.lastAppliedIdx = s.lastAppliedIdx)
    (found : Server.detectVotingCfgChange es (s.log.back + 1) s.votingCfgChangeLogIdx =
      some s'.votingCfgChangeLogIdx)
    (settled : (m.replay (s.log.entries.map Entry.type)).Settled (es.map Entry.type)) :
    Tracks m s' := by
  have length := chain.wf.length_eq
  have inside := tracks.inside
  obtain ⟨places, cases_⟩ := detect_spec (by omega) found
  refine ⟨fun k at_ fresh => ?_, ?_, ?_⟩
  · rw [flags] at at_
    rw [applied] at fresh
    by_cases old : k < s.log.entries.length
    · rw [List.getElem?_append_left (by simpa using old)] at at_
      have place := tracks.noted k at_ fresh
      rcases cases_ with ⟨same, -⟩ | ⟨none_, -, -⟩
      · rw [same, place]
      · omega
    · rw [List.getElem?_append_right (by simpa using Nat.le_of_not_lt old)] at at_
      rw [places _ at_]
      simp only [List.length_map]
      omega
  · rw [back]
    rcases cases_ with ⟨same, -⟩ | ⟨-, -, high⟩ <;> omega
  · rw [types]
    exact Membership.along_append.mpr ⟨tracks.settled, settled⟩

/-- A cut forgets the noted index only when that entry is cut off. -/
theorem truncate (chain : IndexChain s) (above : s.commitIdx < idx)
    (inside : idx ≤ s.log.back) : Tracks m (s.truncate idx) := by
  have front := chain.front_le
  have low := chain.applied_le
  have nonneg := chain.wf.front_nonneg
  have cut := logDelete_log chain.wf (show s.log.front < idx by omega) inside
  have entries : (s.truncate idx).log.entries = s.log.entries.take (idx - 1).toNat := by
    change (logDelete s.log idx).1.entries = _
    rw [cut]
  have back : (s.truncate idx).log.back = idx - 1 := by
    change (logDelete s.log idx).1.back = _
    rw [cut]
  have voting : (s.truncate idx).votingCfgChangeLogIdx =
      if s.votingCfgChangeLogIdx ≠ -1 ∧ s.votingCfgChangeLogIdx ≥ idx then -1
      else s.votingCfgChangeLogIdx := rfl
  refine ⟨fun k at_ fresh => ?_, ?_, ?_⟩
  · rw [entries, List.map_take] at at_
    have short : k < (idx - 1).toNat := by
      by_contra long
      rw [List.getElem?_take, if_neg long] at at_
      cases at_
    rw [List.getElem?_take_of_lt short] at at_
    have place := tracks.noted k at_ fresh
    rw [voting, if_neg (by omega), place]
  · rw [voting, back]
    split <;> omega
  · have whole := tracks.settled
    rw [← List.take_append_drop (idx - 1).toNat s.log.entries, List.map_append] at whole
    rw [entries]
    exact (Membership.along_append.mp whole).1

end Tracks

/-! ## The condition on a run -/

/-- A leader's message that brings configuration changes starts in the retained part of the log,
promotes nobody, and passes the guard of `raft_recv_entry_batch` over what it leaves of the log. -/
def Server.Passes (m : Membership ι) (s : Server ι α) (ae : MsgAppendentries ι α) : Prop :=
  (∃ e ∈ s.newEntries ae, e.type ≠ .normal) →
    s.log.front ≤ ae.prevLogIdx ∧
    (m.replay ((s.log.entries.take (s.newIdx ae - 1).toNat).map Entry.type)).Settled
      ((s.newEntries ae).map Entry.type) ∧
    Server.detectVotingCfgChange (s.newEntries ae) (s.newIdx ae)
      (if s.newIdx ae ≤ s.votingCfgChangeLogIdx then -1 else s.votingCfgChangeLogIdx) ≠ none

/-- A call that promotes nobody and brings at most one change at a time; `m` is the membership the
log started from. -/
def Guarded (m : Membership ι) (s : Server ι α) : Env α × Input ι α → Prop
  | (_, .recvEntry e) =>
    s.state = .leader → (m.replay (s.log.entries.map Entry.type)).Settled [e.type]
  | (_, .recvEntryBatch es) =>
    s.state = .leader → (m.replay (s.log.entries.map Entry.type)).Settled (es.map MsgEntry.type)
  | (_, .recv source (.appendentriesResponse r)) => s.state = .leader → ¬ s.Due source r
  | (_, .recv _ (.appendentries ae)) => s.currentTerm ≤ ae.term → s.Passes m ae
  | _ => True

instance (m : Membership ι) (s : Server ι α) (ae : MsgAppendentries ι α) :
    Decidable (s.Passes m ae) :=
  inferInstanceAs (Decidable (_ → _ ∧ _ ∧ _))

instance (s : Server ι α) (source : ι) (r : MsgAppendentriesResponse) :
    Decidable (s.Due source r) :=
  inferInstanceAs (Decidable (_ ∧ _ ∧ _))

instance (m : Membership ι) (s : Server ι α) : ∀ l : Env α × Input ι α, Decidable (Guarded m s l)
  | (_, .recvEntry _) | (_, .recvEntryBatch _) | (_, .recv _ (.appendentries _))
  | (_, .recv _ (.appendentriesResponse _)) => inferInstanceAs (Decidable (_ → _))
  | (_, .recv _ (.requestvote _)) | (_, .recv _ (.requestvoteResponse _)) | (_, .periodic _)
  | (_, .checkpoint _) => isTrue trivial

/-! ## The writes of a call -/

section Step

set_option linter.unusedSectionVars false

variable {m : Membership ι} {env : Env α} {input : Input ι α} {s s' t : Server ι α}

theorem stampFrom_flags (isLeader : Bool) (prev : Option (Entry ι α)) (idx : Int)
    (es : List (Entry ι α)) :
    (stampFrom isLeader prev idx es).map Entry.isVotingCfgChange =
      es.map Entry.isVotingCfgChange :=
  stampFrom_map (fun _ _ _ => rfl) prev idx es

theorem Tracks.submitted {es : List (MsgEntry ι α)} {early : Int} {s₁ s₂ : Server ι α}
    (tracks : Tracks m s) (chain : IndexChain s) (submitted : Submitted s s' es early s₁ s₂)
    (settled : (m.replay (s.log.entries.map Entry.type)).Settled (es.map MsgEntry.type)) :
    Tracks m s' := by
  obtain ⟨-, detected, -, appended, sent, ends⟩ := submitted
  have log : s'.log = s₁.log := by rw [ends, ← sent.log]
  have applied : s'.lastAppliedIdx = s.lastAppliedIdx := by
    rw [ends, sent.core, appended.core, applyCfg_core]
  refine tracks.append chain ?_ ?_ ?_ applied detected ?_
  · rw [log, appended.grown.entries_eq, List.map_append, stampFrom_flags]
  · rw [log, appended.grown.entries_eq, List.map_append, stampFrom_types]
  · rw [log, appended.grown.back_eq, stampFrom_length]
  · rw [entryOf_types]
    exact settled

variable {ae : MsgAppendentries ι α} {i : Nat} {cut : Option Int}

/-- Where the new entries of a message go. -/
theorem Scan.goes (scan : Scan s ae i cut) (chain : IndexChain s)
    (retained : s.log.front ≤ ae.prevLogIdx)
    (agrees : s.HoldsPrev ae)
    (some_ : i < ae.entries.length) : (s.cutAt cut).log.back = ae.prevLogIdx + i := by
  have nonneg := chain.wf.front_nonneg
  have front := chain.front_le
  have base := chain.base_le
  have low := chain.applied_le
  have high := chain.commit_le
  cases cut with
  | none =>
    have beyond := chain.wf.getAtIdx_none ((scan.keeps rfl).2 some_)
    have reached : ae.prevLogIdx + i ≤ s.log.back := by
      cases i with
      | zero =>
        by_cases first : 0 < ae.prevLogIdx ∧ s.logBase ≤ ae.prevLogIdx
        · obtain ⟨e, found, -⟩ := agrees first.1 first.2
          have := (logGetAtIdx_bounds found).2
          omega
        · omega
      | succ i =>
        obtain ⟨x, found, -⟩ := scan.present i (ae.entries.get ⟨i, by omega⟩) (by omega)
          (List.getElem?_eq_getElem (by omega))
        have := (logGetAtIdx_bounds found).2
        omega
    change s.log.back = _
    omega
  | some idx =>
    obtain ⟨above, empty | ⟨rfl, e, x, -, found, -⟩⟩ := scan.cuts idx rfl
    · rw [empty.1] at some_
      cases some_
    · have inside := (logGetAtIdx_bounds found).2
      change (logDelete s.log _).1.back = _
      rw [logDelete_log chain.wf (by omega) inside]
      simp only
      omega

/-- The noted index after the cut of a message with new entries. -/
theorem Scan.pending (scan : Scan s ae i cut) (inside : s.votingCfgChangeLogIdx ≤ s.log.back)
    (goes : (s.cutAt cut).log.back = ae.prevLogIdx + i) (nonneg : 0 ≤ ae.prevLogIdx)
    (some_ : i < ae.entries.length) :
    (s.cutAt cut).votingCfgChangeLogIdx =
      if ae.prevLogIdx + 1 + i ≤ s.votingCfgChangeLogIdx then -1 else s.votingCfgChangeLogIdx := by
  cases cut with
  | none =>
    change s.log.back = _ at goes
    rw [if_neg (by omega)]
    rfl
  | some idx =>
    obtain ⟨-, empty | ⟨rfl, -⟩⟩ := scan.cuts idx rfl
    · rw [empty.1] at some_
      cases some_
    · change (if _ then _ else _) = _
      by_cases cuts : ae.prevLogIdx + 1 + i ≤ s.votingCfgChangeLogIdx
      · rw [if_pos ⟨by omega, cuts⟩, if_pos cuts]
      · rw [if_neg fun both => cuts both.2, if_neg cuts]

theorem Tracks.cutAt (tracks : Tracks m s) (chain : IndexChain s) (scan : Scan s ae i cut) :
    Tracks m (s.cutAt cut) := by
  cases cut with
  | none => exact tracks
  | some idx =>
    obtain ⟨above, inside⟩ := scan.cut_inside
    exact tracks.truncate chain above inside

/-- The entries a cut leaves below the new ones of a message. -/
theorem cutAt_entries (scan : Scan s ae i cut) (chain : IndexChain s) {back : Int}
    (goes : (s.cutAt cut).log.back = back) :
    (s.cutAt cut).log.entries = s.log.entries.take back.toNat := by
  have length := chain.wf.length_eq
  have front := chain.front_le
  have low := chain.applied_le
  cases cut with
  | none =>
    change s.log.back = back at goes
    change s.log.entries = _
    rw [List.take_of_length_le (by omega)]
  | some idx =>
    obtain ⟨above, inside⟩ := scan.cut_inside
    change (logDelete s.log idx).1.back = back at goes
    change (logDelete s.log idx).1.entries = _
    rw [logDelete_log chain.wf (by omega) inside] at goes ⊢
    rw [← goes]

theorem Tracks.taken (tracks : Tracks m s) (chain : IndexChain s) (scan : Scan s ae i cut)
    (agrees : s.HoldsPrev ae)
    (passes : s.Passes m ae) : Tracks m (s.taken ae i cut) := by
  have shorter := tracks.cutAt chain scan
  have chain' := (advances_cutAt scan chain).1
  obtain ⟨s₁, appended, written⟩ := acceptEntries_spec (s.cutAt cut) scan.short
  have voting : s₁.votingCfgChangeLogIdx = (s.cutAt cut).votingCfgChangeLogIdx := by
    rw [appended.core, applyCfg_core]
  have applied : s₁.lastAppliedIdx = (s.cutAt cut).lastAppliedIdx := by
    rw [appended.core, applyCfg_core]
  rw [voting] at written
  -- what the guard finds among the new entries is what the follower notes
  have guarded : ∃ detected, Server.detectVotingCfgChange (ae.entries.drop i)
        ((s.cutAt cut).log.back + 1) (s.cutAt cut).votingCfgChangeLogIdx = some detected ∧
      Server.noteVotingCfgChange (ae.entries.drop i) (ae.prevLogIdx + 1 + i)
        (s.cutAt cut).votingCfgChangeLogIdx = detected ∧
      (m.replay ((s.cutAt cut).log.entries.map Entry.type)).Settled
        ((ae.entries.drop i).map Entry.type) := by
    by_cases changes : ∃ e ∈ ae.entries.drop i, e.type ≠ .normal
    · rw [Server.Passes, scan.newEntries, scan.newIdx] at passes
      obtain ⟨retained, settled, found⟩ := passes changes
      obtain ⟨e, member, -⟩ := changes
      have some_ : i < ae.entries.length := by
        have := List.length_pos_of_mem member
        rw [List.length_drop] at this
        omega
      have goes := scan.goes chain retained agrees some_
      have nonneg := chain.wf.front_nonneg
      rw [← scan.pending tracks.inside goes (by omega) some_] at found
      obtain ⟨detected, found⟩ := Option.ne_none_iff_exists'.mp found
      have place : (s.cutAt cut).log.back + 1 = ae.prevLogIdx + 1 + i := by omega
      have kept : ae.prevLogIdx + 1 + i - 1 = ae.prevLogIdx + i := by omega
      refine ⟨detected, place ▸ found, note_of_detect found, ?_⟩
      rw [cutAt_entries scan chain goes]
      rwa [kept] at settled
    · have normal : ∀ e ∈ ae.entries.drop i, e.type = .normal := by
        intro e member
        by_contra other
        exact changes ⟨e, member, other⟩
      have unknown : ∀ e ∈ ae.entries.drop i, e.isVotingCfgChange = false := by
        intro e member
        rw [Entry.isVotingCfgChange, normal e member]
      refine ⟨_, detect_none unknown, note_of_detect (detect_none unknown), ?_⟩
      refine Membership.along_normal (fun _ => id) fun type member => ?_
      obtain ⟨e, inside, rfl⟩ := List.mem_map.mp member
      exact normal e inside
  obtain ⟨detected, found, noted, settled⟩ := guarded
  rw [Server.taken, written, noted]
  refine shorter.append chain' ?_ ?_ ?_ applied found settled
  · change s₁.log.entries.map _ = _
    rw [appended.grown.entries_eq, List.map_append, stampFrom_flags]
  · change s₁.log.entries.map _ = _
    rw [appended.grown.entries_eq, List.map_append, stampFrom_types]
  · change s₁.log.back = _
    rw [appended.grown.back_eq, stampFrom_length]

theorem passes_opens (opens : Opens input s t) (passes : s.Passes m ae) : t.Passes m ae := by
  unfold Server.Passes
  rw [opens.newEntries, opens.newIdx, opens.quiet.log, opens.quiet.votingCfgChangeLogIdx]
  exact passes

theorem Tracks.write (tracks : Tracks m t) (chain : IndexChain t) (opens : Opens input s t)
    (good : Guarded m s (env, input)) (act : Writes env input t s') : Tracks m s' := by
  cases act with
  | @submit _ _ _ s₁ s₂ es early submits submitted =>
    have leader : (∀ source ae, input ≠ .recv source (.appendentries ae)) → s.state = .leader :=
      fun local_ => (opens.role local_).2 ▸ submitted.leader
    refine tracks.submitted chain submitted ?_
    rw [opens.quiet.log]
    obtain ⟨e, rfl, rfl⟩ | rfl | ⟨source, r, rfl, due, rfl⟩ := submits.source
    · exact good (leader fun _ _ same => by cases same)
    · exact good (leader fun _ _ same => by cases same)
    · exact absurd (opens.due due) (good (leader fun _ _ same => by cases same))
  | cut same pos found differ above =>
    exact tracks.truncate chain above (logGetAtIdx_bounds found).2
  | take same _ agrees scan =>
    exact tracks.taken chain scan agrees (passes_opens opens (good (same ▸ opens.term)))

theorem Tracks.step {l : Env α × Input ι α} (tracks : Tracks m s) (chain : IndexChain s)
    (good : Guarded m s l) (taken : s.step l = some s') : Tracks m s' := by
  cases step_course taken with
  | plays acts => exact (tracks.lights chain acts).1
  | writes opens before write after =>
    obtain ⟨tracks', chain'⟩ := tracks.lights chain before
    exact ((tracks'.write chain' opens good write).lights (write.advances chain').1 after).1

end Step

/-! ## Runs -/

variable {s : Server ι α}

theorem tracks_run {m : Membership ι} {s' : Server ι α} (tracks : Tracks m s)
    (chain : IndexChain s) (run : Path Server.step (Guarded m) s s') :
    Tracks m s' ∧ IndexChain s' :=
  run.keeps (I := fun t => Tracks m t ∧ IndexChain t) ⟨tracks, chain⟩
    (fun _ _ _ kept good taken =>
      ⟨kept.1.step kept.2 good taken, (advances_step taken kept.2).1⟩)

theorem Fresh.tracks (fresh : Fresh s) (m : Membership ι) (voting : s.votingCfgChangeLogIdx = -1) :
    Tracks m s := by
  refine ⟨fun k at_ => ?_, ?_, ?_⟩
  · rw [fresh.log] at at_
    cases at_
  · rw [voting, fresh.log]
    exact (by decide : (-1 : Int) ≤ 0)
  · rw [fresh.log]
    trivial

theorem enrol_voting (me : ι) (replicas : Nat) (cfg : Config) (members : List (ι × Bool)) :
    (Server.enrol me replicas cfg members : Server ι α).votingCfgChangeLogIdx = -1 := by
  unfold Server.enrol
  apply List.foldlRecOn (motive := fun s : Server ι α => s.votingCfgChangeLogIdx = -1) _ _ rfl
  intro s start p _
  split
  · rw [raftAddNode_core]
    exact start
  · change (s.raftAddNode _ _).votingCfgChangeLogIdx = -1
    rw [raftAddNode_core]
    exact start

/-- **One quorum change at a time.**  Along every run whose calls promote nobody and bring at most
one change at a time, at most one entry that changes the quorum is waiting to be applied, and
`voting_cfg_change_log_idx` is its index. -/
theorem one_voting_change (me : ι) (replicas : Nat) (cfg : Config) (members : List (ι × Bool))
    (target : 1 ≤ cfg.logTarget) {s : Server ι α}
    (run : Path Server.step (Guarded (Server.enrol me replicas cfg members : Server ι α).membership)
      (Server.enrol me replicas cfg members) s) :
    (∀ idx idx', s.Pending (Server.enrol me replicas cfg members : Server ι α).membership idx →
      s.Pending (Server.enrol me replicas cfg members : Server ι α).membership idx' → idx = idx') ∧
    ∀ idx, s.Pending (Server.enrol me replicas cfg members : Server ι α).membership idx →
      s.votingCfgChangeLogIdx = idx := by
  obtain ⟨fresh, -⟩ := enrol_start (α := α) me replicas members target
  obtain ⟨tracks, -⟩ := tracks_run
    (fresh.tracks _ (enrol_voting me replicas cfg members)) fresh.indexChain run
  exact ⟨fun idx idx' one two => (tracks.pending one).symm.trans (tracks.pending two),
    fun idx change => tracks.pending change⟩

/-- Three voters and two nodes without a vote. -/
def threeVoters : List (Fin 5 × Bool) :=
  [(0, true), (1, true), (2, true), (3, false), (4, false)]

/-- The election of server 0: the majority is one of all five nodes. -/
def elects : List (Env Nat × Input (Fin 5) Nat) :=
  [(quietEnv 0, .periodic 1000),
    (quietEnv 0, .recv 1 (.requestvoteResponse { term := 1, voteGranted := true })),
    (quietEnv 0, .recv 2 (.requestvoteResponse { term := 1, voteGranted := true }))]

/-- A leader that is removing a voter, and an answer of a node without a vote meanwhile. -/
theorem one_voting_change_removal : ∃ s : Server (Fin 5) Nat,
    s.state = .leader ∧
    s.Pending (Server.enrol 0 3 defaultCfg threeVoters : Server (Fin 5) Nat).membership 2 ∧
    ((∀ idx idx',
        s.Pending (Server.enrol 0 3 defaultCfg threeVoters : Server (Fin 5) Nat).membership idx →
        s.Pending (Server.enrol 0 3 defaultCfg threeVoters : Server (Fin 5) Nat).membership idx' →
          idx = idx') ∧
      ∀ idx,
        s.Pending (Server.enrol 0 3 defaultCfg threeVoters : Server (Fin 5) Nat).membership idx →
          s.votingCfgChangeLogIdx = idx) := by
  have ran : ∃ s ∈ exec Server.step
      (Guarded (Server.enrol 0 3 defaultCfg threeVoters : Server (Fin 5) Nat).membership)
      (Server.enrol 0 3 defaultCfg threeVoters)
      (elects ++
        [(quietEnv 0, .recvEntryBatch
            [{ id := 0, type := .normal, data := 7 }, { id := 0, type := .removeNode 2, data := 0 }]),
          (quietEnv 0, .recv 3 (.appendentriesResponse
            { term := 1, success := true, currentIdx := 1, firstIdx := 1 }))]),
      s.state = .leader ∧
        s.Pending (Server.enrol 0 3 defaultCfg threeVoters : Server (Fin 5) Nat).membership 2 := by
    decide +kernel
  obtain ⟨s, run, leader, change⟩ := Path.exists_of_exec ran
  exact ⟨s, leader, change, one_voting_change 0 3 defaultCfg threeVoters (by decide) run⟩

/-- Both nodes without a vote have caught up: the leader promotes both at once. -/
theorem one_voting_change_fails : ∃ s : Server (Fin 5) Nat,
    Path Server.step anyStep (Server.enrol 0 3 defaultCfg threeVoters) s ∧ s.state = .leader ∧
    ¬ ((∀ idx idx',
        s.Pending (Server.enrol 0 3 defaultCfg threeVoters : Server (Fin 5) Nat).membership idx →
        s.Pending (Server.enrol 0 3 defaultCfg threeVoters : Server (Fin 5) Nat).membership idx' →
          idx = idx') ∧
      ∀ idx,
        s.Pending (Server.enrol 0 3 defaultCfg threeVoters : Server (Fin 5) Nat).membership idx →
          s.votingCfgChangeLogIdx = idx) := by
  have ran : ∃ s ∈ exec Server.step anyStep (Server.enrol 0 3 defaultCfg threeVoters)
      (elects ++
        [(quietEnv 0, .recv 3 (.appendentriesResponse
            { term := 1, success := true, currentIdx := 0, firstIdx := 1 })),
          (quietEnv 0, .recv 4 (.appendentriesResponse
            { term := 1, success := true, currentIdx := 0, firstIdx := 1 }))]),
      s.state = .leader ∧
        s.Pending (Server.enrol 0 3 defaultCfg threeVoters : Server (Fin 5) Nat).membership 1 ∧
        s.Pending (Server.enrol 0 3 defaultCfg threeVoters : Server (Fin 5) Nat).membership 2 := by
    decide +kernel
  obtain ⟨s, run, leader, first, second⟩ := Path.exists_of_exec ran
  refine ⟨s, run, leader, fun ⟨one, _⟩ => ?_⟩
  exact absurd (one 1 2 first second) (by decide)

end Cyclone.Raft
