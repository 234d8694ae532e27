/-
# Cluster.Acceptance — a follower takes a message

What `raft_recv_appendentries` does to a follower's log under three conditions on the
message and the state it meets, one for each level of the relation.

* `NoGap`: the message's entry does not lie in the released part of the log, where a
  released entry looks like a missing one and is appended again at the tail.
* `NoStaleCut`: an empty message does not cut off an entry of its own term.
* `NoStaleCommit`: the commit index does not pass, on the word of a message that adds
  nothing, the message's own entries onto an entry of an earlier term.

Under them an accepted message moves the log toward the chain of its term and keeps what
agrees with it.
-/
import Cyclone.Cluster.Replication

namespace Cyclone

open Cyclone.Raft Cyclone.Theory

set_option autoImplicit false

variable {n : Nat} {α : Type}

/-! ## The conditions -/

section Conditions

variable (s : Server (Fin n) α) (ae : MsgAppendentries (Fin n) α)

/-- The entry of a message not of an earlier term is not in the released part of the log. -/
def NoGap : Prop :=
  s.currentTerm ≤ ae.term → ae.entries = [] ∨ s.log.front ≤ ae.prevLogIdx

/-- An empty message not of an earlier term cuts off no entry of its own term. -/
def NoStaleCut : Prop :=
  s.currentTerm ≤ ae.term → ae.entries = [] → 0 < ae.prevLogIdx →
    ae.prevLogIdx + 1 < s.currentIdx →
      ∀ e ∈ s.entryFromIdx (ae.prevLogIdx + 1), e.term ≠ ae.term

/-- Every entry of the message is in the log, by its term. -/
def HoldsAll : Prop :=
  ∀ k < ae.entries.length,
    (s.entryFromIdx (ae.prevLogIdx + 1 + k)).map (·.term) = (ae.entries[k]?).map (·.term)

/-- A message not of an earlier term that adds nothing commits beyond its own entries only up to an
entry of its own term. -/
def NoStaleCommit : Prop :=
  s.currentTerm ≤ ae.term → s.commitIdx < ae.leaderCommit → HoldsAll s ae →
    ae.prevLogIdx + ae.entries.length < min s.currentIdx ae.leaderCommit →
      ∀ e ∈ s.entryFromIdx (min s.currentIdx ae.leaderCommit), e.term = ae.term

instance : Decidable (NoGap s ae) := inferInstanceAs (Decidable (_ → _))

instance : Decidable (NoStaleCut s ae) := inferInstanceAs (Decidable (_ → _ → _ → _ → _))

instance : Decidable (HoldsAll s ae) :=
  inferInstanceAs (Decidable (∀ k < ae.entries.length, _))

instance : Decidable (NoStaleCommit s ae) := inferInstanceAs (Decidable (_ → _ → _ → _ → _))

/-- What a level asks of a delivered appendentries. -/
def Level.Admits (level : Level) : Prop :=
  NoGap s ae ∧ (level.keeps → NoStaleCut s ae) ∧ (level.agrees → NoStaleCommit s ae)

end Conditions

variable {level : Level} {i : Fin n} {g : History n α} {s s' : Server (Fin n) α}
variable {ae : MsgAppendentries (Fin n) α}

/-! ## The head of a message -/

/-- Where a message stands in the chain of its term: after its first `k` entries. -/
structure AeHead (g : History n α) (ae : MsgAppendentries (Fin n) α) (k : Nat) : Prop where
  prev : ae.prevLogIdx = k
  inside : k + ae.entries.length ≤ (g.chain ae.term).length
  before : 0 < k → ae.prevLogTerm = termBefore none (g.chain ae.term) k
  entry : ∀ e, ae.entries = [e] → (g.chain ae.term)[k]? = some e
  heartbeat : ae.entries = [] → 0 < k → g.base ae.term ≤ k ∧ ae.leaderCommit ≤ k

theorem AeSim.head {source : Fin n} (sim : AeSim level g source ae)
    (present : ae.prevLogTerm ≠ -1) : ∃ k, AeHead g ae k := by
  rcases sim.one with none_ | ⟨e, only⟩
  · rcases sim.empty none_ with behind | zero | ⟨k, prev, pos, base, inside, before, low⟩
    · exact absurd behind present
    · exact ⟨0, by simpa using zero, by simp [none_], fun pos => absurd pos (lt_irrefl 0),
        fun e only => (by rw [none_] at only; cases only), fun _ pos => absurd pos (lt_irrefl 0)⟩
    · exact ⟨k, prev, by simpa [none_] using inside, fun _ => before,
        fun e only => (by rw [none_] at only; cases only), fun _ _ => ⟨base, by omega⟩⟩
  · obtain ⟨k, prev, at_, before⟩ := sim.entry e only
    have inside := (List.getElem?_eq_some_iff.mp at_).1
    refine ⟨k, prev, by simp only [only, List.length_singleton]; omega, fun _ => before,
      fun e' only' => ?_, fun none_ => (by rw [only] at none_; cases none_)⟩
    rw [only] at only'
    cases only'
    exact at_

variable {k : Nat}

/-- The entry before a message in the chain of its term. -/
theorem AeHead.last (head : AeHead g ae k) (pos : 0 < k) :
    ∃ y, (g.chain ae.term)[k - 1]? = some y ∧ y.term = ae.prevLogTerm := by
  have inside := head.inside
  have at_ : (g.chain ae.term)[k - 1]? = some (g.chain ae.term)[k - 1] :=
    List.getElem?_eq_getElem (by omega)
  refine ⟨_, at_, ?_⟩
  have before := head.before pos
  rw [show k = k - 1 + 1 by omega, termBefore_succ at_] at before
  exact before.symm

/-- The log as the history knows it. -/
theorem Good.log_chained (good : Good level g i s) : g.Chained Entry.term s.log.entries := by
  rw [← good.server.log]
  exact good.matched.log_chained i

section Heads

variable (good : Good level g i s) {k : Nat} (head : AeHead g ae k)
include good head

variable {e : Entry (Fin n) α}

/-- The check of the previous entry compares whole prefixes. -/
theorem AeHead.agree (pos : 0 < k) (found : s.entryFromIdx k = some e)
    (same : e.term = ae.prevLogTerm) : s.log.entries.take k = (g.chain ae.term).take k := by
  obtain ⟨y, at_, term⟩ := head.last pos
  have here := good.server.chain.wf.getAtIdx_some found
  rw [show ((k : Int) - 1).toNat = k - 1 by omega] at here
  have agree := TermChain.Chained.agree good.log_chained (good.matched.chain_chained ae.term)
    here at_ (same.trans term.symm)
  rwa [show k - 1 + 1 = k by omega] at agree

/-- A conflict at the previous entry: nothing from it on agrees with the chain. -/
theorem AeHead.conflict (pos : 0 < k) (found : s.entryFromIdx k = some e)
    (differ : e.term ≠ ae.prevLogTerm) {m : Nat}
    (pre : (g.chain ae.term).take m <+: s.log.entries) :
    (g.chain ae.term).take m <+: s.log.entries.take (k - 1) := by
  obtain ⟨y, at_, term⟩ := head.last pos
  have here := good.server.chain.wf.getAtIdx_some found
  rw [show ((k : Int) - 1).toNat = k - 1 by omega] at here
  refine List.prefix_take_iff.mpr ⟨pre, prefix_le_of_differ pre (List.take_prefix _ _) ?_⟩
  intro x read chained
  rw [here] at read
  cases read
  rw [at_] at chained
  cases chained
  exact differ term

/-- The message's entry, present by its term, is the entry of the chain. -/
theorem AeHead.held {x : Entry (Fin n) α} (only : ae.entries = [e])
    (found : s.entryFromIdx (ae.prevLogIdx + 1) = some x) (same : x.term = e.term) :
    s.log.entries.take (k + 1) = (g.chain ae.term).take (k + 1) := by
  have here := good.server.chain.wf.getAtIdx_some found
  rw [show (ae.prevLogIdx + 1 - 1).toNat = k by have := head.prev; omega] at here
  exact TermChain.Chained.agree good.log_chained (good.matched.chain_chained ae.term) here
    (head.entry e only) same

end Heads

/-! ## The log an accepted message leaves -/

/-- The log after a message that stands after `k` entries was taken. -/
inductive Takes (s : Server (Fin n) α) (ae : MsgAppendentries (Fin n) α) (k : Nat) :
    List (Entry (Fin n) α) → Prop where
  | kept (held : s.Present ae.entries (ae.prevLogIdx + 1) ae.entries.length) :
      Takes s ae k s.log.entries
  | cut (empty : ae.entries = []) (pos : 0 < k) (long : (k : Int) + 1 < s.log.back)
      (above : s.commitIdx ≤ k) : Takes s ae k (s.log.entries.take k)
  | wrote (e : Entry (Fin n) α) (only : ae.entries = [e]) (above : s.commitIdx ≤ k)
      (fresh : ∀ x, s.log.entries[k]? = some x → x.term ≠ e.term) :
      Takes s ae k (s.log.entries.take k ++ [e])

/-- Only the log, the pending voting change and the callbacks differ, and nothing was sent or
applied. -/
structure Rewrote (s s' : Server (Fin n) α) : Prop where
  core : s' =
    { s with
      log := s'.log
      votingCfgChangeLogIdx := s'.votingCfgChangeLogIdx
      calls := s'.calls }
  internal : Internal s s'

theorem Rewrote.refl (s : Server (Fin n) α) : Rewrote s s := ⟨rfl, .of_calls rfl⟩

theorem Rewrote.trans {s'' : Server (Fin n) α} (first : Rewrote s s') (second : Rewrote s' s'') :
    Rewrote s s'' := by
  refine ⟨?_, first.internal.trans second.internal⟩
  have outer := second.core
  rw [first.core] at outer
  exact outer

theorem rewrote_truncate (s : Server (Fin n) α) (idx : Int) : Rewrote s (s.truncate idx) := by
  refine ⟨rfl, _, rfl, fun c member => ?_⟩
  obtain ⟨p, -, rfl⟩ := List.mem_map.mp member
  rfl

theorem rewrote_cutAt (s : Server (Fin n) α) (cut : Option Int) : Rewrote s (s.cutAt cut) := by
  cases cut with
  | none => exact .refl s
  | some idx => exact rewrote_truncate s idx

theorem internal_offers (idx : Int) (es : List (Entry (Fin n) α)) :
    ∀ c ∈ offers idx es, internalCall c := by
  induction es generalizing idx with
  | nil => simp [offers]
  | cons e es ih =>
    intro c member
    rcases List.mem_cons.mp member with rfl | later
    · rfl
    · exact ih (idx + 1) c later

variable {fresh : List (Entry (Fin n) α)}

theorem rewrote_append (plain : ∀ e ∈ fresh, e.type = .normal) :
    Rewrote s (s.raftAppendEntryBatch fresh) := by
  have appended := raftAppendEntryBatch_spec s fresh
  have normal : ∀ e ∈ stampFrom s.cycloneIsLeader s.prevEntry s.log.back fresh,
      e.type = .normal :=
    stampFrom_forall (P := fun e => e.type = .normal) (fun _ _ _ plain => plain) plain
  have core := appended.core
  rw [applyCfg_normal s normal] at core
  exact ⟨by rw [core], _, by rw [core], internal_offers _ _⟩

theorem rewrote_acceptEntries (plain : ∀ e ∈ fresh, e.type = .normal) :
    Rewrote s (s.acceptEntries ae fresh) := by
  have appended : Rewrote s (if fresh = [] then s else s.raftAppendEntryBatch fresh) := by
    split
    · exact .refl s
    · exact rewrote_append plain
  refine appended.trans ⟨rfl, _, rfl, fun c member => ?_⟩
  obtain ⟨e, -, rfl⟩ := List.mem_map.mp member
  rfl

variable {e : Entry (Fin n) α}

/-- A follower stamps an entry that stands in its place with what it has. -/
theorem stampFrom_follower {prev : Option (Entry (Fin n) α)} {idx : Int} (place : e.id = idx) :
    stampFrom false prev idx [e] = [e] := by
  cases e
  simp only at place
  subst place
  rfl

/-- What the append of a message's entry leaves. -/
theorem acceptEntries_entries (unled : s.cycloneIsLeader = false) (place : e.id = s.log.back) :
    (s.acceptEntries ae [e]).log.entries = s.log.entries ++ [e] := by
  have appended := raftAppendEntryBatch_spec s [e]
  rw [unled, stampFrom_follower place] at appended
  exact appended.grown.entries_eq

theorem truncate_entries (chain : IndexChain s) (above : s.commitIdx ≤ k)
    (inside : (k : Int) + 1 ≤ s.log.back) :
    (s.truncate (k + 1)).log.entries = s.log.entries.take k ∧
      (s.truncate (k + 1)).log.back = k := by
  have front := chain.front_le
  have low := chain.applied_le
  have cut := logDelete_log chain.wf (show s.log.front < (k : Int) + 1 by omega) inside
  change (logDelete s.log _).1.entries = _ ∧ (logDelete s.log _).1.back = _
  rw [cut]
  exact ⟨by simp, by simp⟩

variable {j : Nat} {cut : Option Int}

/-- What an accepted message does to a follower's log. -/
theorem takes_of_scan (chain : IndexChain s) (unled : s.cycloneIsLeader = false)
    (prev : ae.prevLogIdx = k) (one : ae.entries = [] ∨ ∃ e, ae.entries = [e])
    (stamped : ∀ e, ae.entries = [e] → e.id = k ∧ e.type = .normal)
    (gap : ae.entries = [] ∨ s.log.front ≤ ae.prevLogIdx) (reach : k ≤ s.log.entries.length)
    (scan : Scan s ae j cut) :
    Takes s ae k (s.taken ae j cut).log.entries ∧ Rewrote s (s.taken ae j cut) := by
  have length := chain.wf.length_eq
  have high := chain.commit_le
  have plain : ∀ e ∈ ae.entries.drop j, e.type = .normal := by
    intro e member
    have member := List.mem_of_mem_drop member
    rcases one with none_ | ⟨x, only⟩
    · rw [none_] at member
      cases member
    · rw [only] at member
      exact (stamped e (by rw [only, List.mem_singleton.mp member])).2
  refine ⟨?_, (rewrote_cutAt s cut).trans (rewrote_acceptEntries plain)⟩
  unfold Server.taken
  rcases one with none_ | ⟨e, only⟩
  · have short := scan.short
    rw [none_] at short ⊢
    rw [List.drop_nil]
    change Takes s ae k (s.cutAt cut).log.entries
    cases cut with
    | none => exact .kept (by rw [none_]; exact .zero s _ _)
    | some idx =>
      rcases (scan.cuts idx rfl).2 with ⟨-, pos, rfl, long⟩ | ⟨-, conflict⟩
      · have above := (scan.cuts _ rfl).1
        simp only [Server.currentIdx, logGetCurrentIdx] at long
        have entries := (truncate_entries chain (k := k) (by omega) (by omega)).1
        rw [prev]
        change Takes s ae k (s.truncate (k + 1)).log.entries
        rw [entries]
        exact .cut none_ (by omega) (by omega) (by omega)
      · obtain ⟨e, -, at_, -⟩ := conflict
        rw [none_] at at_
        cases at_
  · have short := scan.short
    rw [only, List.length_singleton] at short
    obtain ⟨id, -⟩ := stamped e only
    rcases (show j = 0 ∨ j = 1 by omega) with rfl | rfl
    · rw [only, List.drop_zero]
      cases cut with
      | none =>
        have missing := (scan.keeps rfl).2 (by rw [only]; exact Nat.zero_lt_one)
        have low : s.log.front ≤ ae.prevLogIdx := by
          rcases gap with none_ | low
          · rw [only] at none_
            cases none_
          · exact low
        have outside := chain.wf.getAtIdx_none missing
        have all : s.log.entries.length = k := by
          push_cast at outside
          omega
        change Takes s ae k (s.acceptEntries ae [e]).log.entries
        rw [acceptEntries_entries unled (by omega)]
        have whole : s.log.entries.take k = s.log.entries := List.take_of_length_le (by omega)
        have wrote : Takes s ae k (s.log.entries.take k ++ [e]) :=
          .wrote e only (by omega) fun x read => by
            have := (List.getElem?_eq_some_iff.mp read).1
            omega
        rwa [whole] at wrote
      | some idx =>
        obtain ⟨above, ⟨none_, -⟩ | ⟨place, conflict⟩⟩ := scan.cuts idx rfl
        · rw [only] at none_
          cases none_
        · obtain ⟨e', x, at_, found, differ⟩ := conflict
          rw [only] at at_
          cases at_
          have shift : ae.prevLogIdx + 1 + ((0 : Nat) : Int) = (k : Int) + 1 := by omega
          rw [shift] at found place
          subst place
          obtain ⟨-, inside⟩ := logGetAtIdx_bounds found
          obtain ⟨entries, back⟩ := truncate_entries chain (k := k) (by omega) inside
          have unled' : (s.truncate ((k : Int) + 1)).cycloneIsLeader = false := unled
          change Takes s ae k ((s.truncate (k + 1)).acceptEntries ae [e]).log.entries
          rw [acceptEntries_entries unled' (by omega), entries]
          refine .wrote e only (by omega) fun y read => ?_
          have here := chain.wf.getAtIdx_some found
          rw [show ((k : Int) + 1 - 1).toNat = k by omega, read] at here
          cases here
          exact differ
    · have kept : cut = none := by
        cases cut with
        | none => rfl
        | some idx =>
          rcases (scan.cuts idx rfl).2 with ⟨none_, -⟩ | ⟨-, e', -, at_, -⟩
          · rw [only] at none_
            cases none_
          · rw [only] at at_
            cases at_
      subst kept
      rw [only]
      change Takes s ae k s.log.entries
      refine .kept ?_
      rw [only]
      have present := scan.present
      rwa [only] at present

/-! ## A follower accepts a log -/

variable {a : Nat}

theorem frame_accept {l : List (Entry (Fin n) α)} : Frame i g (g.accept i l a) := by
  refine ⟨TermChain.le_accept, fun _ _ => rfl, fun j other => ?_, fun _ _ _ => rfl,
    fun j other t => ?_, fun _ _ _ led => led, fun _ _ _ _ => rfl⟩
  · rw [TermChain.accept_log, if_neg other]
  · rw [TermChain.accept_acked, if_neg fun both => other both.1]

/-- A follower takes over the log of `s'` and acknowledges `a` entries of the chain of its term. -/
theorem Good.accept (good : Good level g i s) (follower : s.state = .follower)
    (led : (g.led s.currentTerm).isSome) (core : s' =
      { s with
      log := s'.log
      votingCfgChangeLogIdx := s'.votingCfgChangeLogIdx
      commitIdx := s'.commitIdx
      currentLeader := s'.currentLeader
      calls := s'.calls }) (chain : IndexChain s') (up : s.commitIdx ≤ s'.commitIdx)
    (chained : g.Chained Entry.term s'.log.entries)
    (bounded : ∀ e ∈ s'.log.entries, e.term ≤ s.currentTerm)
    (short : a ≤ (g.chain s.currentTerm).length) (holds : level.keeps →
      (g.chain s.currentTerm).take a <+: s'.log.entries ∨ (a : Int) ≤ s.commitIdx)
    (covers : level.agrees → (g.chain s.currentTerm).take a <+: s'.log.entries)
    (keeps : level.keeps → ∀ m, (g.chain s.currentTerm).take m <+: s.log.entries →
      (g.chain s.currentTerm).take m <+: s'.log.entries)
    (commits : level.agrees → Covered g s.currentTerm (s'.log.entries.take s'.commitIdx.toNat)) :
    Good level (g.accept i s'.log.entries a) i s' := by
  have sim := good.server
  have term : s'.currentTerm = s.currentTerm := by rw [core]
  have state : s'.state = .follower := by rw [core]; exact follower
  have frame : Frame i g (g.accept i s'.log.entries a) := frame_accept
  have acked : (g.accept i s'.log.entries a).acked i s.currentTerm =
      max (g.acked i s.currentTerm) a := by
    rw [TermChain.accept_acked, if_pos ⟨rfl, sim.cur.symm⟩]
  refine ⟨good.matched.accept chained ?_ ?_, good.stamped, fun agrees => ?_, ?_⟩
  · rwa [sim.cur]
  · rwa [sim.cur]
  · refine (good.safe agrees).accept good.matched (by rwa [sim.cur]) ?_ ?_
    · rw [sim.cur]
      exact covers agrees
    · rw [sim.cur, sim.log]
      exact keeps (Level.keeps_of_agrees agrees)
  · exact
      { chain := chain
        node := by rw [core]; exact sim.node
        replicas := by rw [core]; exact sim.replicas
        members := by rw [core]; exact sim.members
        term_nonneg := term ▸ sim.term_nonneg
        cur := sim.cur.trans term.symm
        log := by rw [TermChain.accept_log, if_pos rfl]
        vote := by rw [core]; exact sim.vote
        toRoleSim := .follower state (by
          rw [term]
          exact sim.follows (by rw [follower]; exact Role.noConfusion))
        holds := fun kept => by
          rw [term, acked]
          change (g.chain s.currentTerm).take _ <+: _ ∨ _
          -- the larger of the two acknowledgements decides which side to prove
          rcases le_total (g.acked i s.currentTerm) a with new | old
          · rw [max_eq_right new]
            rcases holds kept with pre | below
            · exact Or.inl pre
            · exact Or.inr (below.trans up)
          · rw [max_eq_left old]
            rcases sim.holds kept with pre | below
            · exact Or.inl (keeps kept _ pre)
            · exact Or.inr (below.trans up)
        commits := fun agrees => by
          rw [term]
          exact (commits agrees).mono good.matched frame.le (le_refl _) }

/-! ## The commit index of a follower -/

theorem followCommit_ok (ran : s.followCommit ae = .ok s') :
    s' = { s with commitIdx := s'.commitIdx } ∧
      (s'.commitIdx = s.commitIdx ∨
        s.commitIdx < ae.leaderCommit ∧ s'.commitIdx = min s.log.back ae.leaderCommit) := by
  unfold Server.followCommit Server.setCommitIdx at ran
  split at ran
  · rename_i behind
    simp only at ran
    split at ran
    · split at ran
      · rename_i inside
        cases ran
        refine ⟨rfl, Or.inr ⟨behind, ?_⟩⟩
        simp only [Server.currentIdx, logGetCurrentIdx] at inside ⊢
        omega
      · cases ran
    · cases ran
  · cases ran
    exact ⟨rfl, Or.inl rfl⟩

/-- The assertions of `raft_set_commit_idx` as a follower meets them. -/
theorem followCommit_error {f : Fault (Fin n) α} (chain : IndexChain s)
    (ended : s.followCommit ae = .error f) :
    f = ⟨.assertion 124, s⟩ ∧ s.commitIdx < ae.leaderCommit ∧ s.log.back = 0 := by
  have low := chain.applied_le
  have front := chain.front_le
  have nonneg := chain.wf.front_nonneg
  have high := chain.commit_le
  unfold Server.followCommit Server.setCommitIdx at ended
  split at ended
  · rename_i behind
    simp only at ended
    split at ended
    · split at ended
      · cases ended
      · rename_i beyond
        cases ended
        simp only [Server.currentIdx, logGetCurrentIdx] at beyond
        exact ⟨rfl, behind, by omega⟩
    · rename_i above
      simp only [Server.currentIdx, logGetCurrentIdx] at above
      omega
  · cases ended

/-- A log that starts the chain of the message's term is covered up to the leader's commit. -/
theorem AeSim.covers {source : Fin n} (sim : AeSim level g source ae) (agrees : level.agrees)
    (safe : g.Safe) {p : List (Entry (Fin n) α)} (starts : p <+: g.chain ae.term)
    (low : (p.length : Int) ≤ ae.leaderCommit) : Covered g ae.term p := by
  rcases sim.commit agrees with none_ | ⟨u, m, early, committed, bound⟩
  · left
    exact List.length_eq_zero_iff.mp (by omega)
  · refine Or.inr ⟨u, m, early, committed, ?_⟩
    have inside := safe.committed_starts committed early (by rw [sim.led]; rfl)
    refine List.prefix_of_prefix_length_le starts inside ?_
    rw [List.length_take_of_le committed.2.1]
    omega

/-- What a server committed starts the chain of its term. -/
theorem Good.commit_starts (good : Good level g i s) (agrees : level.agrees)
    (led : (g.led s.currentTerm).isSome) :
    s.log.entries.take s.commitIdx.toNat <+: g.chain s.currentTerm := by
  rcases good.server.commits agrees with nil | ⟨u, m, early, committed, inside⟩
  · rw [nil]
    exact List.nil_prefix
  · exact inside.trans ((good.safe agrees).committed_starts committed early led)

/-! ## A message taken over -/

/-- A follower that adopted the term of a message, with the conditions of its level. -/
structure Received (level : Level) (g : History n α) (i : Fin n) (s : Server (Fin n) α)
    (source : Fin n) (ae : MsgAppendentries (Fin n) α) : Prop where
  good : Good level g i s
  sim : AeSim level g source ae
  term : s.currentTerm = ae.term
  follower : s.state = .follower
  admits : level.Admits s ae

variable {source : Fin n}

theorem Received.led (rc : Received level g i s source ae) : (g.led s.currentTerm).isSome := by
  rw [rc.term, rc.sim.led]
  rfl

/-- The logs agree before the message, or the check was skipped below the log base. -/
def AgreesBefore (g : History n α) (s : Server (Fin n) α) (ae : MsgAppendentries (Fin n) α)
    (k : Nat) : Prop :=
  s.log.entries.take k = (g.chain ae.term).take k ∨ (k : Int) < s.logBase

theorem Received.agreesBefore (rc : Received level g i s source ae) (head : AeHead g ae k)
    (agrees : s.HoldsPrev ae) :
    AgreesBefore g s ae k := by
  have prev := head.prev
  by_cases pos : 0 < k
  · by_cases base : s.logBase ≤ k
    · obtain ⟨e, found, same⟩ := agrees (by omega) (by omega)
      rw [prev] at found
      exact Or.inl (head.agree rc.good pos found same)
    · exact Or.inr (by omega)
  · left
    rw [show k = 0 by omega]
    rfl

/-- Below the log base everything is committed. -/
theorem AgreesBefore.reach (chain : IndexChain s) (head : AeHead g ae k)
    (before : AgreesBefore g s ae k) : k ≤ s.log.entries.length := by
  have inside := head.inside
  have length := chain.wf.length_eq
  have base := chain.base_le
  have low := chain.applied_le
  have high := chain.commit_le
  rcases before with same | below
  · have size := congrArg List.length same
    simp only [List.length_take] at size
    omega
  · omega

theorem AgreesBefore.same (chain : IndexChain s) (above : s.commitIdx ≤ k)
    (before : AgreesBefore g s ae k) : s.log.entries.take k = (g.chain ae.term).take k := by
  have base := chain.base_le
  have low := chain.applied_le
  rcases before with same | below
  · exact same
  · omega

/-- The log `l` a message leaves: toward the chain of its term, with what agreed with it kept, and
covered wherever the commit index goes. -/
structure Toward (level : Level) (g : History n α) (s : Server (Fin n) α)
    (ae : MsgAppendentries (Fin n) α) (k : Nat) (l : List (Entry (Fin n) α)) : Prop where
  chained : g.Chained Entry.term l
  bounded : ∀ e ∈ l, e.term ≤ ae.term
  holds : level.keeps → (g.chain ae.term).take (k + ae.entries.length) <+: l ∨
    ((k + ae.entries.length : Nat) : Int) ≤ s.commitIdx
  covers : level.agrees → (g.chain ae.term).take (k + ae.entries.length) <+: l
  keeps : level.keeps → ∀ m, (g.chain ae.term).take m <+: s.log.entries →
    (g.chain ae.term).take m <+: l
  commits : level.agrees → ∀ c : Int,
    c = s.commitIdx ∨ s.commitIdx < ae.leaderCommit ∧ c = min (l.length : Int) ae.leaderCommit →
      Covered g ae.term (l.take c.toNat)

section Toward

variable (rc : Received level g i s source ae) {k : Nat} (head : AeHead g ae k)
  (before : AgreesBefore g s ae k)
include rc head

variable {l : List (Entry (Fin n) α)}

omit head in
/-- Where the commit index goes, when what is committed is kept and the rest starts the chain. -/
theorem Received.covered (same : l.take s.commitIdx.toNat = s.log.entries.take s.commitIdx.toNat)
    (starts : level.agrees → s.commitIdx < ae.leaderCommit →
      l.take (min (l.length : Int) ae.leaderCommit).toNat <+: g.chain ae.term)
    (agrees : level.agrees) (c : Int) (goes : c = s.commitIdx ∨
      s.commitIdx < ae.leaderCommit ∧ c = min (l.length : Int) ae.leaderCommit) :
    Covered g ae.term (l.take c.toNat) := by
  have chain := rc.good.server.chain
  have front := chain.front_le
  have nonneg := chain.wf.front_nonneg
  have low := chain.applied_le
  rcases goes with rfl | ⟨behind, rfl⟩
  · rw [same, ← rc.term]
    exact rc.good.server.commits agrees
  · refine rc.sim.covers agrees (rc.good.safe agrees) (starts agrees behind) ?_
    rw [List.length_take]
    omega

variable {e : Entry (Fin n) α}

theorem Received.present_agrees
    (held : s.Present ae.entries (ae.prevLogIdx + 1) ae.entries.length) (only : ae.entries = [e]) :
    s.log.entries.take (k + 1) = (g.chain ae.term).take (k + 1) := by
  obtain ⟨x, found, same⟩ := held 0 e (by rw [only]; exact Nat.zero_lt_one) (by rw [only]; rfl)
  exact head.held rc.good only (by simpa using found) same

include before in
/-- A message that adds nothing: the log agrees up to its end, or up to its end everything is
committed. -/
theorem Received.kept_agrees (held : s.Present ae.entries (ae.prevLogIdx + 1) ae.entries.length) :
    s.log.entries.take (k + ae.entries.length) = (g.chain ae.term).take (k + ae.entries.length) ∨
      ((k + ae.entries.length : Nat) : Int) ≤ s.commitIdx := by
  have chain := rc.good.server.chain
  have base := chain.base_le
  have low := chain.applied_le
  rcases rc.sim.one with none_ | ⟨e, only⟩
  · rw [none_, List.length_nil, Nat.add_zero]
    rcases before with same | below
    · exact Or.inl same
    · exact Or.inr (by omega)
  · rw [only, List.length_singleton]
    exact Or.inl (rc.present_agrees head held only)

include before in
theorem Received.toward_kept
    (held : s.Present ae.entries (ae.prevLogIdx + 1) ae.entries.length) :
    Toward level g s ae k s.log.entries := by
  have good := rc.good
  have chain := good.server.chain
  have length := chain.wf.length_eq
  have front := chain.front_le
  have low := chain.applied_le
  have high := chain.commit_le
  have prev := head.prev
  have inside := head.inside
  have ends := rc.kept_agrees head before held
  have committed : level.agrees → s.log.entries.take s.commitIdx.toNat <+: g.chain ae.term :=
    fun agrees => rc.term ▸ good.commit_starts agrees rc.led
  refine ⟨good.log_chained, fun e member => ?_, fun _ => ?_, fun agrees => ?_, fun _ _ pre => pre,
    rc.covered rfl fun agrees behind => ?_⟩
  · rw [← rc.term, ← good.server.cur]
    exact good.matched.log_le i e (good.server.log ▸ member)
  · rcases ends with same | below
    · exact Or.inl (same ▸ List.take_prefix _ _)
    · exact Or.inr below
  · rcases ends with same | below
    · exact same ▸ List.take_prefix _ _
    · have cut := take_prefix_eq (committed agrees) (m := k + ae.entries.length) (by
        rw [List.length_take]
        omega)
      rw [cut]
      exact (List.take_prefix _ _).trans (List.take_prefix _ _)
  · -- beyond the message's own entries the condition names the term of the last committed one
    obtain ⟨c, goes⟩ : ∃ c, c = min s.log.back ae.leaderCommit := ⟨_, rfl⟩
    rw [length, ← goes]
    have pos : 0 < c ∨ c ≤ 0 := by omega
    rcases pos with pos | zero
    · by_cases own : c ≤ ((k + ae.entries.length : Nat) : Int)
      · rcases ends with same | below
        · have shorter : s.log.entries.take c.toNat <+:
              s.log.entries.take (k + ae.entries.length) :=
            List.take_prefix_take_left (by omega)
          rw [same] at shorter
          exact shorter.trans (List.take_prefix _ _)
        · have shorter : s.log.entries.take c.toNat <+: s.log.entries.take s.commitIdx.toNat :=
            List.take_prefix_take_left (by omega)
          exact shorter.trans (committed agrees)
      · by_cases retained : s.log.front < c
        · obtain ⟨e, found⟩ := chain.wf.getAtIdx_exists retained (by omega)
          have holdsAll : HoldsAll s ae := by
            intro j short
            obtain ⟨x, found, same⟩ := held j _ short (List.getElem?_eq_getElem short)
            rw [found, List.getElem?_eq_getElem short, Option.map_some, Option.map_some, same]
          have term : e.term = ae.term := by
            refine rc.admits.2.2 agrees (le_of_eq rc.term) behind holdsAll ?_ e ?_
            · simp only [Server.currentIdx, logGetCurrentIdx]
              omega
            · rw [show min s.currentIdx ae.leaderCommit = c from goes.symm]
              exact found
          have at_ := chain.wf.getAtIdx_some found
          obtain ⟨-, -, pre⟩ := good.log_chained _ e (snoc_prefix_of_getElem? at_)
          rw [← take_succ_of_getElem? at_, term, show (c - 1).toNat + 1 = c.toNat by omega] at pre
          exact pre
        · have shorter : s.log.entries.take c.toNat <+: s.log.entries.take s.commitIdx.toNat :=
            List.take_prefix_take_left (by omega)
          exact shorter.trans (committed agrees)
    · rw [show c.toNat = 0 by omega]
      exact List.nil_prefix

variable {m : Nat}

/-- What an empty message cuts off never agreed with the chain. -/
theorem Received.keeps_cut (keeps : level.keeps) (empty : ae.entries = []) (pos : 0 < k)
    (long : (k : Int) + 1 < s.log.back) (above : s.commitIdx ≤ k)
    (pre : (g.chain ae.term).take m <+: s.log.entries) :
    (g.chain ae.term).take m <+: s.log.entries.take k := by
  have chain := rc.good.server.chain
  have front := chain.front_le
  have low := chain.applied_le
  have prev := head.prev
  refine List.prefix_take_iff.mpr ⟨pre, prefix_le_of_differ pre (List.take_prefix _ _) ?_⟩
  intro x read chained
  obtain ⟨e, found⟩ := chain.wf.getAtIdx_exists
    (show s.log.front < ae.prevLogIdx + 1 by omega) (by omega)
  have at_ := chain.wf.getAtIdx_some found
  rw [show (ae.prevLogIdx + 1 - 1).toNat = k by omega, read] at at_
  cases at_
  refine rc.admits.2.1 keeps (le_of_eq rc.term) empty (by omega) ?_ x found
    (rc.good.matched.own_term (head.heartbeat empty pos).1 chained)
  simp only [Server.currentIdx, logGetCurrentIdx]
  omega

omit rc in
/-- What a conflicting entry replaces never agreed with the chain. -/
theorem AeHead.keeps_fresh (only : ae.entries = [e])
    (fresh : ∀ x, s.log.entries[k]? = some x → x.term ≠ e.term)
    (pre : (g.chain ae.term).take m <+: s.log.entries) :
    (g.chain ae.term).take m <+: s.log.entries.take k := by
  refine List.prefix_take_iff.mpr ⟨pre, prefix_le_of_differ pre (List.take_prefix _ _) ?_⟩
  intro x read chained
  rw [head.entry e only] at chained
  cases chained
  exact fresh _ read rfl

include before in
theorem Received.toward_cut (empty : ae.entries = []) (pos : 0 < k)
    (long : (k : Int) + 1 < s.log.back) (above : s.commitIdx ≤ k) :
    Toward level g s ae k (s.log.entries.take k) := by
  have good := rc.good
  have same := before.same good.server.chain above
  have starts : s.log.entries.take k <+: g.chain ae.term := same ▸ List.take_prefix _ _
  refine ⟨good.log_chained.starts (List.take_prefix _ _), fun e member => ?_, fun _ => Or.inl ?_,
    fun _ => ?_, fun keeps m pre => ?_, rc.covered ?_ fun _ _ => ?_⟩
  · rw [← rc.term, ← good.server.cur]
    exact good.matched.log_le i e (good.server.log ▸ List.mem_of_mem_take member)
  · rw [empty, List.length_nil, Nat.add_zero, same]
  · rw [empty, List.length_nil, Nat.add_zero, same]
  · exact rc.keeps_cut head keeps empty pos long above pre
  · rw [List.take_take, min_eq_left (by omega)]
  · exact (List.take_prefix _ _).trans starts

include before in
theorem Received.toward_wrote (only : ae.entries = [e]) (above : s.commitIdx ≤ k)
    (fresh : ∀ x, s.log.entries[k]? = some x → x.term ≠ e.term) :
    Toward level g s ae k (s.log.entries.take k ++ [e]) := by
  have good := rc.good
  have chain := good.server.chain
  have same := before.same chain above
  have reach := before.reach chain head
  have entry := head.entry e only
  have whole : s.log.entries.take k ++ [e] = (g.chain ae.term).take (k + 1) := by
    rw [same, take_succ_of_getElem? entry]
  have kept : (s.log.entries.take k ++ [e]).take s.commitIdx.toNat =
      s.log.entries.take s.commitIdx.toNat := by
    rw [List.take_append_of_le_length (by rw [List.length_take]; omega), List.take_take,
      min_eq_left (by omega)]
  refine ⟨?_, fun x member => ?_, fun _ => Or.inl ?_, fun _ => ?_, fun _ m pre => ?_,
    rc.covered kept fun _ _ => ?_⟩
  · rw [whole]
    exact (good.matched.chain_chained _).starts (List.take_prefix _ _)
  · rw [whole] at member
    obtain ⟨j, at_⟩ := List.mem_iff_getElem?.mp (List.mem_of_mem_take member)
    exact good.matched.chain_le at_
  · rw [only, List.length_singleton, whole]
  · rw [only, List.length_singleton, whole]
  · exact (head.keeps_fresh only fresh pre).trans (List.prefix_append _ _)
  · rw [whole]
    exact (List.take_prefix _ _).trans (List.take_prefix _ _)

include before in
theorem Received.toward (takes : Takes s ae k l) : Toward level g s ae k l := by
  cases takes with
  | kept held => exact rc.toward_kept head before held
  | cut empty pos long above => exact rc.toward_cut head before empty pos long above
  | wrote e only above fresh => exact rc.toward_wrote head before only above fresh

end Toward

/-! ## The handler -/

/-- A follower in a cluster of two or more does not answer for a leader. -/
theorem Received.unled (two : 2 ≤ n) (rc : Received level g i s source ae) :
    s.cycloneIsLeader = false := by
  simp only [Server.cycloneIsLeader, rc.good.server.replicas, rc.follower, reduceCtorEq, or_false,
    decide_eq_false_iff_not]
  omega

section Handler

variable (rc : Received level g i s source ae) (head : AeHead g ae k)
include rc head

/-- The message's entry is stamped with its place. -/
theorem Received.stamped (e : Entry (Fin n) α) (only : ae.entries = [e]) : e.id = k ∧ e.type = .normal := by
  obtain ⟨id, -, normal, -⟩ := rc.good.stamped _ k e (head.entry e only)
  exact ⟨id, normal⟩

/-- What an accepted message leaves. -/
theorem Received.takes (two : 2 ≤ n) (before : AgreesBefore g s ae k) (scan : Scan s ae j cut) :
    Takes s ae k (s.taken ae j cut).log.entries ∧ Rewrote s (s.taken ae j cut) :=
  takes_of_scan rc.good.server.chain (rc.unled two) head.prev rc.sim.one (rc.stamped head)
    (rc.admits.1 (le_of_eq rc.term)) (before.reach rc.good.server.chain head) scan

/-- An accepted message. -/
theorem Received.accepts (two : 2 ≤ n) (other : source ≠ i)
    (before : AgreesBefore g s ae k) (scan : Scan s ae j cut)
    (committed : (s.taken ae j cut).followCommit ae = .ok s') (node : Option (Fin n)) :
    ∃ g', Moves level i g s g' { s' with currentLeader := node } ∧
      PacketSim level g' ⟨i, source, .appendentriesResponse (s'.acceptReply ae)⟩ := by
  have good := rc.good
  obtain ⟨takes, rewrote⟩ := rc.takes head two before scan
  have toward := rc.toward head before takes
  obtain ⟨taken, -, -⟩ := advances_taken scan good.server.chain
  obtain ⟨chain, up, -⟩ :=
    (advances_taken scan).trans (followCommit_commits committed).advances good.server.chain
  obtain ⟨core, goes⟩ := followCommit_ok committed
  have length := taken.wf.length_eq
  have outer := rewrote.core
  obtain ⟨cs, calls, internal⟩ := rewrote.internal
  generalize s.taken ae j cut = u at takes toward core goes calls outer length
  have entries : s'.log.entries = u.log.entries := by rw [core]
  have commit : u.commitIdx = s.commitIdx := by rw [outer]
  have term : s'.currentTerm = ae.term := by
    rw [core, outer]
    exact rc.term
  rw [commit, ← length] at goes
  have last : Good level
      (g.accept i ({ s' with currentLeader := node } : Server (Fin n) α).log.entries
        (k + ae.entries.length)) i { s' with currentLeader := node } := by
    refine good.accept rc.follower rc.led ?_ { chain with } up ?_ ?_ ?_ ?_ ?_ ?_ ?_
    · rw [core, outer]
    · rw [entries]
      exact toward.chained
    · rw [rc.term, entries]
      exact toward.bounded
    · rw [rc.term]
      exact head.inside
    · rw [rc.term, entries]
      exact toward.holds
    · rw [rc.term, entries]
      exact toward.covers
    · rw [rc.term, entries]
      exact toward.keeps
    · rw [rc.term, entries]
      exact fun agrees => toward.commits agrees _ goes
  refine ⟨_, ⟨frame_accept, last, cs, ?_, ?_⟩, fun self => other self.symm, fun _ => ⟨?_, ?_⟩⟩
  · change s'.calls = _
    rw [← calls, core]
  · rw [packetsOf_internal internal]
    simp
  · change g.led s'.currentTerm = some source
    rw [term]
    exact rc.sim.led
  · change ae.prevLogIdx + _ ≤ ((g.accept i _ _).acked i s'.currentTerm : Int)
    rw [term, TermChain.accept_acked, if_pos ⟨rfl, rc.term ▸ good.server.cur.symm⟩, head.prev]
    omega

/-- A message whose previous entry conflicts. -/
theorem Received.conflicts (pos : 0 < k) (found : s.entryFromIdx k = some e) (differ : e.term ≠ ae.prevLogTerm)
    (above : s.commitIdx < k) : ∃ g', Moves level i g s g' (s.truncate k) := by
  have good := rc.good
  have chain := good.server.chain
  obtain ⟨-, inside⟩ := logGetAtIdx_bounds found
  obtain ⟨m, rfl⟩ : ∃ m, k = m + 1 := ⟨k - 1, by omega⟩
  have whole : ((m + 1 : Nat) : Int) = (m : Int) + 1 := by omega
  rw [whole] at inside above ⊢
  have chain' := (advances_truncate above inside chain).1
  have entries := (truncate_entries chain (k := m) (by omega) inside).1
  have rewrote := rewrote_truncate s ((m : Int) + 1)
  have front := chain.front_le
  have low := chain.applied_le
  have nonneg := chain.wf.front_nonneg
  obtain ⟨cs, calls, internal⟩ := rewrote.internal
  have last : Good level (g.accept i (s.truncate ((m : Int) + 1)).log.entries 0) i
      (s.truncate ((m : Int) + 1)) := by
    refine good.accept rc.follower rc.led rfl chain' (le_refl _) ?_ ?_ (Nat.zero_le _) ?_ ?_ ?_ ?_
    · rw [entries]
      exact good.log_chained.starts (List.take_prefix _ _)
    · rw [entries, ← good.server.cur]
      exact fun x member =>
        good.matched.log_le i x (good.server.log ▸ List.mem_of_mem_take member)
    · exact fun _ => Or.inl List.nil_prefix
    · exact fun _ => List.nil_prefix
    · rw [entries, rc.term]
      exact fun _ j pre => head.conflict good pos found differ pre
    · intro agrees
      change Covered g s.currentTerm ((s.truncate ((m : Int) + 1)).log.entries.take s.commitIdx.toNat)
      rw [entries, List.take_take, min_eq_left (by omega)]
      exact good.server.commits agrees
  exact ⟨_, frame_accept, last, cs, calls, by rw [packetsOf_internal internal]; simp⟩

end Handler

theorem Level.Admits.congr {t : Server (Fin n) α} (log : t.log = s.log)
    (commit : t.commitIdx = s.commitIdx) (current : s.currentTerm ≤ ae.term)
    (admits : level.Admits s ae) : level.Admits t ae := by
  obtain ⟨gap, cut, stale⟩ := admits
  have entries : ∀ idx, t.entryFromIdx idx = s.entryFromIdx idx := fun idx => by
    rw [Server.entryFromIdx, log]
    rfl
  have back : t.currentIdx = s.currentIdx := by
    rw [Server.currentIdx, log]
    rfl
  refine ⟨fun _ => ?_, fun keeps _ => ?_, fun agrees _ behind holdsAll => ?_⟩
  · rw [log]
    exact gap current
  · rw [back, entries]
    exact cut keeps current
  · rw [back, entries]
    rw [commit] at behind
    refine stale agrees current behind fun k short => ?_
    rw [← entries]
    exact holdsAll k short

theorem heard_calls (s : Server (Fin n) α) (ae : MsgAppendentries (Fin n) α) :
    (s.heard ae).calls = s.calls := by
  rw [heard_core]

theorem internal_adopted (s : Server (Fin n) α) (ae : MsgAppendentries (Fin n) α) :
    Internal s (s.adopted ae) := by
  have heard := heard_calls s ae
  have term : (s.heard ae).currentTerm = s.currentTerm := by rw [heard_core]
  unfold Server.adopted
  split
  · rw [setCurrentTerm_of_lt (by omega)]
    exact ⟨[.persistTerm ae.term], by rw [← heard]; rfl, by simp [internalCall]⟩
  · split
    · exact .of_calls heard
    · exact .of_calls heard

theorem Moves.of_heard (good : Good level g i s) (ae : MsgAppendentries (Fin n) α) :
    Moves level i g s g (s.heard ae) :=
  .of_alike good (alike_of_sent (sent_heard (fun _ => False) s ae))
    ⟨[], by simp [heard_calls], rfl⟩

/-- A message not of an earlier term makes its receiver a follower of its term. -/
theorem Received.of_adopted (good : Good level g i s)
    (packet : PacketSim level g ⟨source, i, .appendentries ae⟩) (admits : level.Admits s ae)
    (current : s.currentTerm ≤ ae.term) :
    ∃ g', Moves level i g s g' (s.adopted ae) ∧ Received level g' i (s.adopted ae) source ae := by
  obtain ⟨other, sim⟩ := packet
  have heard := Moves.of_heard good ae
  have term : (s.heard ae).currentTerm = s.currentTerm := by rw [heard_core]
  have state : (s.heard ae).state = s.state := by rw [heard_core]
  have quiet := quiet_adopted s ae
  have kept := admits.congr quiet.log quiet.commitIdx current
  unfold Server.adopted at kept ⊢
  split at kept
  · rename_i later
    rw [if_pos later]
    have raise := heard.trans (.of_raise heard.good (show (s.heard ae).currentTerm < ae.term by omega))
    refine ⟨_, raise, raise.good, sim.mono good.matched raise.frame.le, ?_, ?_, kept⟩
    · rw [setCurrentTerm_of_lt (by omega)]
      rfl
    · rfl
  · rename_i same
    rw [if_neg same]
    have below : s.state ≠ .leader := by
      intro leader
      have mine := (good.server.leads leader).1
      rw [show s.currentTerm = ae.term by omega, sim.led] at mine
      exact other (Option.some.inj mine)
    split at kept
    · rename_i candidate
      rw [if_pos candidate]
      have follower := heard.good.follower (by rw [state]; exact below)
      refine ⟨g, heard.trans ⟨.refl i g, follower, [], by
        simp [Server.becomeFollower, Server.setState], by simp [packetsOf]⟩, follower, sim, ?_, rfl,
        kept⟩
      change (s.heard ae).currentTerm = _
      omega
    · rename_i candidate
      rw [if_neg candidate]
      refine ⟨g, heard, heard.good, sim, by omega, ?_, kept⟩
      rw [state]
      cases role : s.state with
      | follower => rfl
      | candidate => exact absurd role candidate
      | leader => exact absurd role below

/-- How a delivered appendentries ends. -/
theorem recvAppendentries_moves (two : 2 ≤ n) (good : Good level g i s)
    (packet : PacketSim level g ⟨source, i, .appendentries ae⟩) (admits : level.Admits s ae) :
    (∃ s' r g', s.raftRecvAppendentries source ae = .ok (s', r) ∧ Moves level i g s g' s' ∧
      PacketSim level g' ⟨i, source, .appendentriesResponse r⟩) ∨
    ∃ f, s.raftRecvAppendentries source ae = .error f ∧ Internal s f.server := by
  have other := packet.1
  have adopted := fun current => Received.of_adopted good packet admits current
  have internal := internal_adopted s ae
  have outcome := raftRecvAppendentries_spec s source ae
  generalize s.raftRecvAppendentries source ae = result at outcome
  have refused : ∀ (t : Server (Fin n) α) (idx : Int) (h : History n α),
      PacketSim level h ⟨i, source, .appendentriesResponse (t.failAt idx).2⟩ :=
    fun t idx h => ⟨fun self => other self.symm, fun yes => by cases yes⟩
  cases outcome with
  | exits behind => exact Or.inr ⟨_, rfl, .of_calls (heard_calls s ae)⟩
  | stale older => exact Or.inl ⟨_, _, g, rfl, .of_heard good ae, refused _ _ g⟩
  | unvoting later silent => exact absurd good.server.seated.selfVoting silent
  | missing current pos absent =>
    obtain ⟨h, moves, -⟩ := adopted current
    exact Or.inl ⟨_, _, h, rfl, moves, refused _ _ h⟩
  | conflict present current pos e found differ above =>
    obtain ⟨h, moves, rc⟩ := adopted current
    obtain ⟨k, head⟩ := rc.sim.head present
    have quiet := quiet_adopted s ae
    have prev := head.prev
    rw [prev] at found above pos
    obtain ⟨h', cuts⟩ := rc.conflicts head (by omega) (e := e)
      (by rw [Server.entryFromIdx, quiet.log]; exact found) differ
      (by rw [quiet.commitIdx]; exact above)
    rw [prev]
    exact Or.inl ⟨_, _, h', rfl, moves.trans cuts, refused _ _ h'⟩
  | conflictFault present current pos e found differ below => exact Or.inr ⟨_, rfl, internal⟩
  | checked present current agrees accepted =>
    obtain ⟨h, moves, rc⟩ := adopted current
    obtain ⟨k, head⟩ := rc.sim.head present
    have quiet := quiet_adopted s ae
    have before : AgreesBefore h (s.adopted ae) ae k := by
      refine rc.agreesBefore head fun pos base => ?_
      rw [Server.entryFromIdx, quiet.log]
      exact agrees pos (quiet.logBase ▸ base)
    cases accepted with
    | accept j cut scan t committed =>
      obtain ⟨h', takes, answer⟩ := rc.accepts head two other before scan committed
        ((s.getNode source).map (·.id))
      exact Or.inl ⟨_, _, h', rfl, moves.trans takes, answer⟩
    | commitFault j cut scan f ended =>
      have taken := (advances_taken scan rc.good.server.chain).1
      obtain ⟨rfl, -⟩ := followCommit_error taken ended
      exact Or.inr ⟨_, rfl, internal.trans (rc.takes head two before scan).2.internal⟩
    | emptyFault empty pos long below => exact Or.inr ⟨_, rfl, internal⟩
    | scanFault j held conflict below => exact Or.inr ⟨_, rfl, internal⟩

end Cyclone
