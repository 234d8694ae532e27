/-
# Raft.Committed — what a response says later

`raft_msg_entry_response_committed` looks its entry up in the log as it is now.  A
truncation stops above the commit index and an append starts behind it, so neither
changes the answer for an entry that was committed (`Retains`).  A compaction does: the
entry is gone, the lookup finds nothing, and the answer goes back from 1 to 0, the
answer for an entry that is not committed.

A call of `raft_periodic` compacts at most once and releases `log_target` entries
(`raftPeriodic_retains`); a run whose calls leave the entry of a response in the log
never takes its answer back (`commit_status_final`).
-/
import Cyclone.Raft.IndexChain

namespace Cyclone.Raft

open Cyclone.Theory (Path)

set_option autoImplicit false

variable {ι α : Type}

/-- `raft_msg_entry_response_committed`. -/
def Server.raftMsgEntryResponseCommitted (s : Server ι α) (r : MsgEntryResponse) : Int :=
  match s.entryFromIdx r.idx with
  | none => 0
  | some ety => if r.term ≠ ety.term then -1 else if r.idx ≤ s.commitIdx then 1 else 0

theorem raftMsgEntryResponseCommitted_iff (s : Server ι α) (r : MsgEntryResponse) :
    s.raftMsgEntryResponseCommitted r = 1 ↔
      ∃ ety, s.entryFromIdx r.idx = some ety ∧ r.term = ety.term ∧ r.idx ≤ s.commitIdx := by
  unfold Server.raftMsgEntryResponseCommitted
  cases found : s.entryFromIdx r.idx with
  | none => simp
  | some ety =>
    simp only [Option.some.injEq, exists_eq_left']
    split
    · simp_all
    · split <;> simp_all

/-! ## What a call keeps of the committed entries -/

/-- `l'` has the front of `l` and its entries up to index `k`. -/
structure Retains (k : Int) (l l' : Log ι α) : Prop where
  front : l'.front = l.front
  entries : ∀ i : Nat, (i : Int) < k → l'.entries[i]? = l.entries[i]?

namespace Retains

variable {k k' : Int} {l l' l'' : Log ι α} {s : Server ι α}

theorem refl (k : Int) (l : Log ι α) : Retains k l l := ⟨rfl, fun _ _ => rfl⟩

theorem trans (first : Retains k l l') (second : Retains k l' l'') : Retains k l l'' := by
  constructor
  · rw [second.front, first.front]
  · intro i below
    rw [second.entries i below, first.entries i below]

theorem mono (kept : Retains k' l l') (less : k ≤ k') : Retains k l l' :=
  ⟨kept.front, fun i below => kept.entries i (by omega)⟩

/-- A cut above the commit index. -/
theorem truncated {idx : Int} (chain : IndexChain s) (above : s.commitIdx < idx)
    (inside : idx ≤ s.log.back) : Retains s.commitIdx s.log (s.truncate idx).log := by
  have front := chain.front_le
  have low := chain.applied_le
  have cut : (s.truncate idx).log = _ :=
    logDelete_log chain.wf (show s.log.front < idx by omega) inside
  rw [cut]
  exact ⟨rfl, fun i below => List.getElem?_take_of_lt (by omega)⟩

theorem appended {es : List (Entry ι α)} (chain : IndexChain s) (grown : s.log.Grown l es) :
    Retains s.commitIdx s.log l := by
  have length := chain.wf.length_eq
  have high := chain.commit_le
  constructor
  · exact grown.front_eq
  · intro i below
    rw [grown.entries_eq]
    exact List.getElem?_append_left (by omega)

end Retains

section Calls

variable [DecidableEq ι] {env : Env α} {input : Input ι α} {s t : Server ι α}

/-- A light action outside `raft_periodic` compacts nothing. -/
theorem Light.retains (act : Light env input s t) (still : ∀ msec, input ≠ .periodic msec)
    (k : Int) : Retains k s.log t.log := by
  rcases act.kinds with calm | ⟨ety, next⟩ | ⟨⟨msec, periodic⟩, -⟩
  · exact ⟨calm.front, fun i _ => by rw [calm.entries]⟩
  · rw [next.core]
    exact .refl k s.log
  · exact absurd periodic (still msec)

theorem retains_cutAt {ae : MsgAppendentries ι α} {i : Nat} {cut : Option Int}
    (chain : IndexChain s) (scan : Scan s ae i cut) :
    Retains s.commitIdx s.log (s.cutAt cut).log := by
  cases cut with
  | none => exact .refl _ _
  | some idx =>
    obtain ⟨above, inside⟩ := scan.cut_inside
    exact .truncated chain above inside

theorem Writes.retains (act : Writes env input s t) (chain : IndexChain s) :
    Retains s.commitIdx s.log t.log := by
  cases act with
  | submit _ submitted =>
    have log : t.log = _ := congrArg Server.log submitted.ends
    rw [log]
    simp only [submitted.sent.log]
    exact .appended chain submitted.appended.grown
  | cut _ _ found _ above => exact .truncated chain above (logGetAtIdx_bounds found).2
  | @take _ ae _ _ _ _ i cut scan =>
    obtain ⟨s₁, appended, written⟩ := acceptEntries_spec (s.cutAt cut) scan.short
    obtain ⟨chain', up, -⟩ := advances_cutAt scan chain
    have log : (s.taken ae i cut).log = s₁.log := by rw [Server.taken, written]
    rw [log]
    exact (retains_cutAt chain scan).trans ((Retains.appended chain' appended.grown).mono up)

/-- A call other than `raft_periodic` keeps everything that was committed. -/
theorem Course.retains (course : Course env input s t) (chain : IndexChain s)
    (still : ∀ msec, input ≠ .periodic msec) : Retains s.commitIdx s.log t.log := by
  have kept := course.keeps
    (I := fun u => Retains s.commitIdx s.log u.log ∧ IndexChain u ∧ s.commitIdx ≤ u.commitIdx)
    (fun u v kept act => by
      obtain ⟨retained, chain, up⟩ := kept
      obtain ⟨chain', up', -⟩ := act.advances chain
      exact ⟨retained.trans (act.retains still _), chain', up.trans up'⟩)
    (fun u v kept _ act => by
      obtain ⟨retained, chain, up⟩ := kept
      obtain ⟨chain', up', -⟩ := act.advances chain
      exact ⟨retained.trans ((act.retains chain).mono up), chain', up.trans up'⟩)
    ⟨.refl _ _, chain, le_refl _⟩
  exact kept.1

end Calls

/-! ## Compaction -/

section Periodic

variable [DecidableEq ι] {env : Env α} {s t : Server ι α} {msec : Int}

/-- Clocks, sends and elections. -/
theorem quiet_periodicTick (ran : s.periodicTick env msec = .ok t) : Quiet s t := by
  have clock : Quiet s { s with timeoutElapsed := s.timeoutElapsed + msec } :=
    ⟨rfl, rfl, rfl, rfl, rfl, rfl, rfl, rfl, rfl, rfl, [], by simp, by simp⟩
  have quiet : ∀ u, Server.Ticks env { s with timeoutElapsed := s.timeoutElapsed + msec } u →
      Quiet s u := by
    rintro u (rfl | ⟨-, -, -, rfl⟩)
    · exact clock
    · exact clock.trans (quiet_raftBecomeLeader env _)
  refine periodicTick_rule (P := fun r => r = .ok t → Quiet s t) env rfl (fun u _ _ same => ?_)
    (fun u ticks _ same => ?_) (fun u ticks _ _ _ same => ?_) (fun u ticks _ same => ?_) ran <;>
    cases same
  · exact (quiet u ticks).trans (sent_leaderTick env u msec).quiet
  · exact (quiet u ticks).trans (quiet_raftBecomeCandidate env u)
  · exact quiet t ticks

/-- `raft_periodic` up to its compaction: the log and its bounds are as they were. -/
structure Pending (s t : Server ι α) : Prop where
  log : t.log = s.log
  commitIdx : t.commitIdx = s.commitIdx
  lastCompactedIdx : t.lastCompactedIdx = s.lastCompactedIdx
  logTarget : t.logTarget = s.logTarget
  chain : IndexChain t

theorem raftPeriodic_pending (chain : IndexChain s) (ran : s.raftPeriodic env msec = .ok t) :
    ∃ u, Pending s u ∧ (t = u ∨ t = u.compactLog) := by
  unfold Server.raftPeriodic at ran
  split at ran
  · cases ran
  · rename_i v ticked
    have quiet := quiet_periodicTick ticked
    have ready : Pending s v :=
      ⟨quiet.log, quiet.commitIdx, quiet.lastCompactedIdx, quiet.logTarget, (quiet.advances chain).1⟩
    have next : ∀ w w' ety, Pending s w → AppliedNext w w' ety → Pending s w' := by
      intro w w' ety pending next
      have chain' := (next.advances pending.chain).1
      rw [next.core] at chain' ⊢
      exact ⟨pending.log, pending.commitIdx, pending.lastCompactedIdx, pending.logTarget, chain'⟩
    cases applied : v.applyCommitted env with
    | error f => simp [applied] at ran
    | ok p =>
      obtain ⟨u, done⟩ := p
      have pending := applyCommitted_keeps next ready applied
      simp only [applied] at ran
      cases done with
      | true =>
        cases ran
        exact ⟨u, pending, Or.inr rfl⟩
      | false =>
        cases ran
        exact ⟨_, pending, Or.inl rfl⟩

/-- The entry at `idx` outlives the call: either what is committed is not yet two targets past the
last compaction, or a compaction ends below the entry. -/
def Server.Outlives (s : Server ι α) (idx : Int) : Input ι α → Prop
  | .periodic _ =>
    s.commitIdx ≤ s.lastCompactedIdx + 2 * s.logTarget ∨ s.lastCompactedIdx + s.logTarget < idx
  | _ => True

instance (s : Server ι α) (idx : Int) : (input : Input ι α) → Decidable (s.Outlives idx input)
  | .periodic _ => inferInstanceAs (Decidable (_ ∨ _))
  | .recvEntry _ | .recvEntryBatch _ | .checkpoint _ | .recv _ _ => isTrue trivial

theorem raftPeriodic_retains (chain : IndexChain s) (ran : s.raftPeriodic env msec = .ok t)
    {idx : Int} (low : s.log.front < idx) (outlives : s.Outlives idx (.periodic msec)) :
    t.log.front < idx ∧ t.log.entries = s.log.entries := by
  obtain ⟨u, pending, rfl | rfl⟩ := raftPeriodic_pending chain ran
  · rw [pending.log]
    exact ⟨low, rfl⟩
  · have base := pending.chain.base_le
    have applied := pending.chain.applied_le
    have count := pending.chain.wf.count_eq
    have high := pending.chain.commit_le
    have compacted := pending.chain.compacted
    have target := pending.chain.target_pos
    have commit := pending.commitIdx
    have last := pending.lastCompactedIdx
    have size := pending.logTarget
    unfold Server.compactLog
    split
    · rw [pending.log]
      exact ⟨low, rfl⟩
    · have cnt : u.lastCompactedIdx + u.logTarget - u.lastCompactedIdx = u.logTarget := by omega
      simp only [cnt, logPollBatch_eq (show u.logTarget ≤ u.log.count by omega)]
      refine ⟨?_, by rw [pending.log]⟩
      rcases outlives with early | above <;> omega

end Periodic

/-! ## Runs -/

section Runs

variable [DecidableEq ι]

/-- One call. -/
theorem committed_step {s t : Server ι α} {l : Env α × Input ι α} {r : MsgEntryResponse}
    (chain : IndexChain s) (taken : s.step l = some t) (outlives : s.Outlives r.idx l.2)
    (yes : s.raftMsgEntryResponseCommitted r = 1) : t.raftMsgEntryResponseCommitted r = 1 := by
  obtain ⟨chain', up, -⟩ := advances_step taken chain
  obtain ⟨ety, found, term, inside⟩ := (raftMsgEntryResponseCommitted_iff s r).mp yes
  have low := (logGetAtIdx_bounds found).1
  have nonneg := chain.wf.front_nonneg
  have kept : t.log.front < r.idx ∧
      t.log.entries[(r.idx - 1).toNat]? = s.log.entries[(r.idx - 1).toNat]? := by
    obtain ⟨env, input⟩ := l
    cases input with
    | periodic msec =>
      have ran : s.raftPeriodic env msec = .ok t := by
        simp only [Server.step, Server.handle] at taken
        cases result : s.raftPeriodic env msec with
        | error f => simp [result, Except.map] at taken
        | ok u => simpa [result, Except.map] using taken
      obtain ⟨front, entries⟩ := raftPeriodic_retains chain ran low outlives
      exact ⟨front, by rw [entries]⟩
    | recvEntry | recvEntryBatch | checkpoint | recv =>
      have retained := (step_course taken).retains chain (by simp)
      exact ⟨retained.front ▸ low, retained.entries _ (by omega)⟩
  have nonneg' := chain'.wf.front_nonneg
  have high := chain'.commit_le
  apply (raftMsgEntryResponseCommitted_iff t r).mpr
  refine ⟨ety, ?_, term, by omega⟩
  rw [Server.entryFromIdx, logGetAtIdx_retained nonneg' kept.1 (by omega), kept.2]
  exact chain.wf.getAtIdx_some found

/-- **Commit status.**  Along every run from `raft_new`, once a response was answered with 1 it is
answered with 1 as long as no `raft_periodic` may compact its entry away. -/
theorem commit_status_final (me : ι) (replicas : Nat) (cfg : Config) (active : List ι)
    (target : 1 ≤ cfg.logTarget) (r : MsgEntryResponse) {s t : Server ι α}
    (run : Path Server.step Admissible (Server.boot me replicas cfg active) s)
    (onward : Path Server.step (fun s l => Admissible s l ∧ s.Outlives r.idx l.2) s t)
    (yes : s.raftMsgEntryResponseCommitted r = 1) : t.raftMsgEntryResponseCommitted r = 1 := by
  obtain ⟨chain, -, -⟩ := advances_run run (boot_fresh me replicas active target).indexChain
  have kept := onward.keeps
    (I := fun u => u.raftMsgEntryResponseCommitted r = 1 ∧ IndexChain u) ⟨yes, chain⟩
    (fun u l v kept ok taken =>
      ⟨committed_step kept.2 taken ok.2 kept.1, (advances_step taken kept.2).1⟩)
  exact kept.1

/-! ## A lone server -/

/-- The executors report what they have reached. -/
def reportingEnv : Env Nat := ⟨0, fun _ => 0, fun idx => some idx, 0⟩

def loneEntry : Env Nat × Input (Fin 1) Nat := (reportingEnv, .recvEntry ⟨0, .normal, 7⟩)

def loneTick : Env Nat × Input (Fin 1) Nat := (reportingEnv, .periodic 1)

/-- A lone server that compacts one entry at a time. -/
def loneStart : Server (Fin 1) Nat := .boot 0 1 ⟨1000, 200, 1, false, true⟩ [0]

/-- Three entries; the second outlives the compaction of the first. -/
theorem commit_status_final_lone : ∃ s t : Server (Fin 1) Nat,
    s.log.front = 0 ∧ t.log.front = 1 ∧
    s.raftMsgEntryResponseCommitted ⟨0, 2, 0⟩ = 1 ∧
    t.raftMsgEntryResponseCommitted ⟨0, 2, 0⟩ = 1 := by
  have ran : ∃ s ∈ Theory.exec Server.step Admissible loneStart
      [loneTick, loneEntry, loneEntry, loneEntry],
      (s.log.front = 0 ∧ s.raftMsgEntryResponseCommitted ⟨0, 2, 0⟩ = 1) ∧
          ∃ t ∈ Theory.exec Server.step (fun s l => Admissible s l ∧ s.Outlives 2 l.2) s [loneTick],
            t.log.front = 1 := by
    decide +kernel
  obtain ⟨s, run, ⟨front, yes⟩, more⟩ := Path.exists_of_exec ran
  obtain ⟨t, onward, front'⟩ := Path.exists_of_exec more
  exact ⟨s, t, front, front', yes,
    commit_status_final 0 1 ⟨1000, 200, 1, false, true⟩ [0] (by decide) _ run onward yes⟩

/-- The response to the first entry was answered with 1; a `raft_periodic` later it is answered as
if the entry were not committed. -/
theorem commit_status_lost : ∃ s₀ s₁ s t : Server (Fin 1) Nat,
    Path Server.step Admissible loneStart s₀ ∧
    s₀.raftRecvEntry reportingEnv ⟨0, .normal, 7⟩ = .ok (s₁, .ok ⟨0, 1, 0⟩) ∧
    Path Server.step Admissible s₁ s ∧ s.raftMsgEntryResponseCommitted ⟨0, 1, 0⟩ = 1 ∧
    Path Server.step Admissible s t ∧ t.raftMsgEntryResponseCommitted ⟨0, 1, 0⟩ = 0 := by
  have first : ∃ s₀ ∈ Theory.exec Server.step Admissible loneStart [loneTick],
      ((s₀.raftRecvEntry reportingEnv ⟨0, .normal, 7⟩).toOption.any fun p => decide
        (p.2 = .ok ⟨0, 1, 0⟩ ∧
          ∃ s ∈ Theory.exec Server.step Admissible p.1 [loneEntry, loneEntry],
              s.raftMsgEntryResponseCommitted ⟨0, 1, 0⟩ = 1 ∧
              ∃ t ∈ Theory.exec Server.step Admissible s [loneTick],
                  t.raftMsgEntryResponseCommitted ⟨0, 1, 0⟩ = 0)) = true := by
    decide +kernel
  obtain ⟨s₀, run, received⟩ := Path.exists_of_exec first
  cases result : s₀.raftRecvEntry reportingEnv ⟨0, .normal, 7⟩ with
  | error f => simp [result, Except.toOption] at received
  | ok p =>
    rw [result] at received
    obtain ⟨response, second⟩ := of_decide_eq_true received
    obtain ⟨s, onward, yes, third⟩ := Path.exists_of_exec second
    obtain ⟨t, last, no⟩ := Path.exists_of_exec third
    refine ⟨s₀, p.1, s, t, run, ?_, onward, yes, last, no⟩
    rw [result, ← response]

end Runs

end Cyclone.Raft
