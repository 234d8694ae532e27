/-
# Cluster.Completeness — what stays through later terms

Along a run the history only grows, so what one state says of a term can be read in every later
one:

* a leader never drops or rewrites an entry of its own log while it leads, and terms never
  decrease along any log (`NoGap`);
* an entry some server applied is held by every later leader of that server's term or a newer one,
  and by a majority at any later time (orderly runs).
-/
import Cyclone.Cluster.Safety

namespace Cyclone

open Cyclone.Raft Cyclone.Theory

set_option autoImplicit false

variable {n : Nat} {α : Type}

/-- The server has `e` at the 0-based index `idx`: in its log, or applied and possibly released. -/
def Raft.Server.Holds (s : Server (Fin n) α) (e : Entry (Fin n) α) (idx : Int) : Prop :=
  s.entryFromIdx (idx + 1) = some e ∨ (e, idx) ∈ appliedOf s.calls

variable {level : Level} {c c' : Cluster n α} {g : History n α}

/-- **The relation from a state on.**  The later history continues the earlier one. -/
theorem Sim.run (two : 2 ≤ n) (sim : Sim level c g)
    (later : Path Cluster.step (Cluster.Meets level.Admits) c c') :
    ∃ g', g.Le g' ∧ Sim level c' g' := by
  refine later.keeps (I := fun d => ∃ g', g.Le g' ∧ Sim level d g') ⟨g, .refl g, sim⟩ ?_
  rintro d l d' ⟨g', le, kept⟩ meets taken
  obtain ⟨g'', le', kept'⟩ := kept.step two meets taken
  exact ⟨g'', le.trans le', kept'⟩

theorem Raft.IndexChain.holds {s : Server (Fin n) α} (chain : IndexChain s) {k : Nat}
    {e : Entry (Fin n) α} (at_ : s.log.entries[k]? = some e) : s.Holds e k := by
  have inside := (List.getElem?_eq_some_iff.mp at_).1
  by_cases early : k < s.lastAppliedIdx.toNat
  · right
    rw [chain.trace, mem_indexed]
    exact ⟨k, rfl, by rw [List.getElem?_take_of_lt early, at_]⟩
  · left
    have released := chain.front_le
    have total := chain.wf.length_eq
    obtain ⟨e', found⟩ : ∃ e', s.entryFromIdx ((k : Int) + 1) = some e' :=
      chain.wf.getAtIdx_exists (by omega) (by omega)
    have same := chain.wf.getAtIdx_some found
    rw [show ((k : Int) + 1 - 1).toNat = k by omega, at_] at same
    cases same
    exact found

/-- Server 0 leads term 1 and applies an entry.  It appends another, while server 1 wins term 2 with
the vote of server 2 and appends one of its own. -/
theorem handover : ∃ (c c' : Cluster 3 Nat) (e e' : Entry (Fin 3) Nat),
    Path Cluster.step (Cluster.Meets Orderly) (Cluster.initial fun _ => smallCfg) c ∧
      Path Cluster.step (Cluster.Meets Orderly) c c' ∧
      ((c.up 0 = true ∧ (c.srv 0).state = .leader ∧ (c.srv 0).currentTerm = 1) ∧
        (e, 0) ∈ appliedOf (c.srv 0).calls ∧ (c.srv 0).log.entries.length = 1) ∧
      ((c'.up 0 = true ∧ (c'.srv 0).state = .leader ∧ (c'.srv 0).currentTerm = 1) ∧
        (c'.srv 0).log.entries.length = 2) ∧
      (c'.up 1 = true ∧ (c'.srv 1).state = .leader ∧ (c'.srv 1).currentTerm = 2) ∧
      (c'.srv 1).entryFromIdx 1 = some e ∧ (c'.srv 1).entryFromIdx 2 = some e' := by
  have ran : ∃ c : Cluster 3 Nat,
      c ∈ exec Cluster.step (Cluster.Meets Orderly) (Cluster.initial fun _ => smallCfg)
      [.tick 0 1000, .take 0, .take 2, .ask 0 11, .take 5, .take 7] ∧
      ((c.up 0 = true ∧ (c.srv 0).state = .leader ∧
          (c.srv 0).currentTerm = 1) ∧ (⟨1, 0, .normal, 11, ⟨0, 0⟩⟩, 0) ∈ appliedOf (c.srv 0).calls ∧
          (c.srv 0).log.entries.length = 1) ∧
        ∃ c' ∈ exec Cluster.step (Cluster.Meets Orderly) c
          [.ask 0 12, .tick 1 1000, .take 11, .take 12, .ask 1 22],
            ((c'.up 0 = true ∧ (c'.srv 0).state = .leader ∧ (c'.srv 0).currentTerm = 1) ∧
              (c'.srv 0).log.entries.length = 2) ∧
            (c'.up 1 = true ∧ (c'.srv 1).state = .leader ∧ (c'.srv 1).currentTerm = 2) ∧
            (c'.srv 1).entryFromIdx 1 = some ⟨1, 0, .normal, 11, ⟨0, 0⟩⟩ ∧
            (c'.srv 1).entryFromIdx 2 = some ⟨2, 1, .normal, 22, ⟨1, 1⟩⟩ := by
    decide +kernel
  obtain ⟨c, run, first, rest⟩ := Path.exists_of_exec ran
  obtain ⟨c', later, second⟩ := Path.exists_of_exec rest
  exact ⟨c, c', _, _, run, later, first, second⟩

/-! ## One log -/

theorem NoGap.path (run : Path Cluster.step (Cluster.Meets NoGap) c c') :
    Path Cluster.step (Cluster.Meets Level.matching.Admits) c c' :=
  run.mono fun _ _ meets => meets.mono fun _ _ gap => ⟨gap, False.elim, False.elim⟩

theorem Orderly.gapless (run : Path Cluster.step (Cluster.Meets Orderly) c c') :
    Path Cluster.step (Cluster.Meets NoGap) c c' :=
  run.mono fun _ _ meets => meets.mono fun _ _ orderly => orderly.1

/-- **Leader append-only.**  Along every run without a message into the released part of a log: from
one state in which a server leads a term to a later one in which it leads the same term, its log
only got longer. -/
theorem leader_append_only (two : 2 ≤ n) (cfg : Fin n → Config)
    (target : ∀ i, 1 ≤ (cfg i).logTarget)
    (run : Path Cluster.step (Cluster.Meets NoGap) (Cluster.initial cfg) c)
    (later : Path Cluster.step (Cluster.Meets NoGap) c c') {i : Fin n}
    (up : c.up i = true) (leader : (c.srv i).state = .leader)
    (up' : c'.up i = true) (leader' : (c'.srv i).state = .leader)
    (same : (c.srv i).currentTerm = (c'.srv i).currentTerm) :
    (c.srv i).log.entries <+: (c'.srv i).log.entries := by
  obtain ⟨g, sim⟩ := sim_run two cfg target (NoGap.path run)
  obtain ⟨g', le, sim'⟩ := sim.run two (NoGap.path later)
  obtain ⟨led, log, -⟩ := (sim.server i up).leads leader
  obtain ⟨-, log', -⟩ := (sim'.server i up').leads leader'
  rw [log, log', ← same]
  exact le.chain _ (by rw [led]; rfl)

theorem leader_append_only_handover : ∃ c c' : Cluster 3 Nat,
    (c.srv 0).log.entries.length = 1 ∧ (c'.srv 0).log.entries.length = 2 ∧
      (c.srv 0).log.entries <+: (c'.srv 0).log.entries := by
  obtain ⟨c, c', -, -, run, later, ⟨⟨up, leader, term⟩, -, one⟩, ⟨⟨up', leader', term'⟩, two⟩, -⟩ :=
    handover
  exact ⟨c, c', one, two, leader_append_only (by decide) (fun _ => smallCfg) (fun _ => le_refl 1)
    (Orderly.gapless run) (Orderly.gapless later) up leader up' leader' (term.trans term'.symm)⟩

/-- **Terms never decrease along a log.**  In every run without a message into the released part of a
log, of two entries that a running server retains the later one has the later term, or the same; and
none is of a term the server has not reached. -/
theorem log_terms_sorted (two : 2 ≤ n) (cfg : Fin n → Config) (target : ∀ i, 1 ≤ (cfg i).logTarget)
    (run : Path Cluster.step (Cluster.Meets NoGap) (Cluster.initial cfg) c) {i : Fin n}
    (up : c.up i = true) {k k' : Int} (le : k ≤ k') {e e' : Entry (Fin n) α}
    (at_ : (c.srv i).entryFromIdx k = some e) (at' : (c.srv i).entryFromIdx k' = some e') :
    e.term ≤ e'.term ∧ e'.term ≤ (c.srv i).currentTerm := by
  obtain ⟨g, sim⟩ := sim_run two cfg target (NoGap.path run)
  have server := sim.server i up
  have chained := sim.matched.log_chained i
  have reached := sim.matched.log_le i
  rw [server.log] at chained reached
  rw [server.cur] at reached
  have left := server.chain.wf.getAtIdx_some at_
  have right := server.chain.wf.getAtIdx_some at'
  exact ⟨sim.matched.mono chained (by omega) left right, reached e' (List.mem_of_getElem? right)⟩

theorem log_terms_sorted_handover : ∃ (c : Cluster 3 Nat) (e e' : Entry (Fin 3) Nat),
    (c.srv 1).entryFromIdx 1 = some e ∧ (c.srv 1).entryFromIdx 2 = some e' ∧
      e.term ≤ e'.term ∧ e'.term ≤ (c.srv 1).currentTerm := by
  obtain ⟨c, c', e, e', run, later, -, -, ⟨up, -⟩, at_, at'⟩ := handover
  exact ⟨c', e, e', at_, at', log_terms_sorted (by decide) (fun _ => smallCfg) (fun _ => le_refl 1)
    (Orderly.gapless (run.trans later)) up (by decide) at_ at'⟩

/-! ## Applied entries -/

section Applied

variable {i j : Fin n} {idx : Int} {e : Entry (Fin n) α} {t : Int} {l : List (Entry (Fin n) α)}

theorem Orderly.path (run : Path Cluster.step (Cluster.Meets Orderly) c c') :
    Path Cluster.step (Cluster.Meets Level.safe.Admits) c c' :=
  run.mono fun _ _ meets => meets.mono fun _ _ orderly => orderly.admits _

/-- A leader's log starts with what was committed up to its term. -/
theorem Covered.starts_leader (sim : Sim .safe c g) (up : c.up i = true)
    (leader : (c.srv i).state = .leader) (covered : Covered g (c.srv i).currentTerm l) :
    l <+: (c.srv i).log.entries := by
  obtain ⟨led, log, -⟩ := (sim.server i up).leads leader
  rw [log]
  rcases covered with rfl | ⟨u, m, early, committed, inside⟩
  · exact List.nil_prefix
  · exact inside.trans ((sim.safe trivial).committed_starts committed early (by rw [led]; rfl))

/-- The majority that acknowledged a committed cut still has it. -/
theorem Covered.on_majority (sim : Sim .safe c g) (covered : Covered g t l) {k : Nat}
    (at_ : l[k]? = some e) : ∃ Q : Finset (Fin n), Majority Q ∧
      ∀ j ∈ Q, c.up j = true → (c.srv j).Holds e k := by
  rcases covered with rfl | ⟨u, m, -, committed, inside⟩
  · cases at_
  · obtain ⟨Q, major, acks⟩ := committed.2.2
    refine ⟨Q, major, fun j member up => (sim.server j up).chain.holds ?_⟩
    have held := (sim.safe trivial).hold j u m committed.1 (acks j member) committed.open
    rw [(sim.server j up).log] at held
    rw [getElem?_prefix_eq (inside.trans held) (List.getElem?_eq_some_iff.mp at_).1, at_]

/-- **Leader completeness.**  Along every orderly run: an entry a server applied is held, at its
index, by every later leader whose term is not older than that server's term was. -/
theorem leader_completeness (two : 2 ≤ n) (cfg : Fin n → Config)
    (target : ∀ i, 1 ≤ (cfg i).logTarget)
    (run : Path Cluster.step (Cluster.Meets Orderly) (Cluster.initial cfg) c)
    (later : Path Cluster.step (Cluster.Meets Orderly) c c') (up : c.up j = true)
    (applied : (e, idx) ∈ appliedOf (c.srv j).calls) (running : c'.up i = true)
    (leader : (c'.srv i).state = .leader)
    (newer : (c.srv j).currentTerm ≤ (c'.srv i).currentTerm) : (c'.srv i).Holds e idx := by
  obtain ⟨g, sim⟩ := sim_run two cfg target (Orderly.path run)
  obtain ⟨g', le, sim'⟩ := sim.run two (Orderly.path later)
  have server := sim.server j up
  rw [server.chain.trace, mem_indexed] at applied
  obtain ⟨k, rfl, at_⟩ := applied
  have low := server.chain.applied_le
  have covered := (server.commits trivial).starts
    (List.take_prefix_take_left (show (c.srv j).lastAppliedIdx.toNat ≤ _ by omega))
  have held := (covered.mono sim.matched le newer).starts_leader sim' running leader
  refine (sim'.server i running).chain.holds ?_
  rw [getElem?_prefix_eq held (List.getElem?_eq_some_iff.mp at_).1, at_]

theorem leader_completeness_handover : ∃ (c c' : Cluster 3 Nat) (e : Entry (Fin 3) Nat),
    (e, 0) ∈ appliedOf (c.srv 0).calls ∧ (c'.srv 1).state = .leader ∧
      (c.srv 0).currentTerm < (c'.srv 1).currentTerm ∧ (c'.srv 1).Holds e 0 := by
  obtain ⟨c, c', e, -, run, later, ⟨⟨up, -, term⟩, applied, -⟩, -, ⟨running, leader, term'⟩, -⟩ :=
    handover
  exact ⟨c, c', e, applied, leader, by omega, leader_completeness (by decide) (fun _ => smallCfg)
    (fun _ => le_refl 1) run later up applied running leader (by omega)⟩

/-- **Applied entries stay on a majority.**  At any later time of an orderly run some majority has
the property that each of its running servers holds the entry at its index. -/
theorem applied_on_majority (two : 2 ≤ n) (cfg : Fin n → Config)
    (target : ∀ i, 1 ≤ (cfg i).logTarget)
    (run : Path Cluster.step (Cluster.Meets Orderly) (Cluster.initial cfg) c)
    (later : Path Cluster.step (Cluster.Meets Orderly) c c')
    (applied : (e, idx) ∈ appliedOf (c.srv j).calls) :
    ∃ Q : Finset (Fin n), Majority Q ∧ ∀ k ∈ Q, c'.up k = true → (c'.srv k).Holds e idx := by
  obtain ⟨g, sim⟩ := sim_run two cfg target (Orderly.path run)
  obtain ⟨g', le, sim'⟩ := sim.run two (Orderly.path later)
  obtain ⟨l, calls, covered⟩ := sim.applied j
  obtain ⟨t, inside⟩ := covered trivial
  rw [calls, mem_indexed] at applied
  obtain ⟨k, rfl, at_⟩ := applied
  exact (inside.mono sim.matched le (le_refl t)).on_majority sim' at_

theorem applied_on_majority_handover : ∃ (c c' : Cluster 3 Nat) (e : Entry (Fin 3) Nat),
    (e, 0) ∈ appliedOf (c.srv 0).calls ∧ (c'.srv 1).currentTerm = 2 ∧ ∃ Q : Finset (Fin 3),
      Majority Q ∧ ∀ k ∈ Q, c'.up k = true → (c'.srv k).Holds e 0 := by
  obtain ⟨c, c', e, -, run, later, ⟨-, applied, -⟩, -, ⟨-, -, term'⟩, -⟩ := handover
  exact ⟨c, c', e, applied, term', applied_on_majority (by decide) (fun _ => smallCfg)
    (fun _ => le_refl 1) run later applied⟩

end Applied

end Cyclone
