/-
# Cluster.Safety — agreement of logs and of applied entries

What the relation says about whole runs of the cluster, each with the conditions on delivered
appendentries it needs:

* retained entries of one index and one term agree, with everything before them (`NoGap`);
* what a follower acknowledged in a term stays while the messages of that term come in
  (and `NoStaleCut`);
* two servers apply the same entry at an index (and `NoStaleCommit`).

Each condition is there because of a run without it: a duplicated message into a compacted
log, and a delayed heartbeat into a longer one.
-/
import Cyclone.Cluster.Runs

namespace Cyclone

open Cyclone.Raft Cyclone.Theory

set_option autoImplicit false

variable {n : Nat} {α : Type}

/-! ## Log matching -/

section Matching

/-- **Log matching.**  Along every run without a message into the released part of a log: entries
two servers retain at one index with one term are the same entry, and so is everything before
them that both retain. -/
theorem log_matching (cfg : Fin n → Config) (target : ∀ i, 1 ≤ (cfg i).logTarget)
    {c : Cluster n α} (run : Path Cluster.step (Cluster.Meets NoGap) (Cluster.initial cfg) c)
    {i j : Fin n} (upLeft : c.up i = true) (upRight : c.up j = true) {idx : Int}
    {e e' : Entry (Fin n) α} (left : (c.srv i).entryFromIdx idx = some e)
    (right : (c.srv j).entryFromIdx idx = some e') (same : e.term = e'.term) :
    e = e' ∧ ∀ k < idx, ∀ x y, (c.srv i).entryFromIdx k = some x →
      (c.srv j).entryFromIdx k = some y → x = y := by
  by_cases other : i = j
  · subst other
    rw [left] at right
    cases right
    refine ⟨rfl, fun k _ x y before after => ?_⟩
    rw [before] at after
    exact Option.some.inj after
  · have admits : Path Cluster.step (Cluster.Meets Level.matching.Admits) (Cluster.initial cfg) c :=
      run.mono fun t l meets => meets.mono fun s ae gap => ⟨gap, False.elim, False.elim⟩
    obtain ⟨g, sim⟩ := sim_run (two_le_of_ne other) cfg target admits
    have here := sim.good upLeft
    have there := sim.good upRight
    have at_ := here.server.chain.wf.getAtIdx_some left
    have at' := there.server.chain.wf.getAtIdx_some right
    have agree := TermChain.Chained.agree here.log_chained there.log_chained at_ at' same
    -- one cut of the two logs; every earlier index is read inside it
    have read : ∀ k ≤ idx, ∀ x y, (c.srv i).entryFromIdx k = some x →
        (c.srv j).entryFromIdx k = some y → x = y := by
      intro k low x y before after
      have pos := (logGetAtIdx_bounds before).1
      have nonneg := here.server.chain.wf.front_nonneg
      have inside : (k - 1).toNat < (idx - 1).toNat + 1 := by omega
      have readLeft := here.server.chain.wf.getAtIdx_some before
      have readRight := there.server.chain.wf.getAtIdx_some after
      rw [← List.getElem?_take_of_lt inside, agree, List.getElem?_take_of_lt inside, readRight]
        at readLeft
      exact (Option.some.inj readLeft).symm
    exact ⟨read idx (le_refl idx) e e' left right,
      fun k low x y before after => read k (le_of_lt low) x y before after⟩

/-- Three entries on two servers, the first of them released on one. -/
theorem log_matching_compacted : ∃ (c : Cluster 2 Nat) (e e' : Entry (Fin 2) Nat),
    (c.srv 1).log.front = 1 ∧ (c.srv 0).entryFromIdx 3 = some e ∧
      (c.srv 1).entryFromIdx 3 = some e' ∧
      (e = e' ∧ ∀ k < 3, ∀ x y, (c.srv 0).entryFromIdx k = some x →
        (c.srv 1).entryFromIdx k = some y → x = y) := by
  have run : ∃ c : Cluster 2 Nat,
      c ∈ exec Cluster.step (Cluster.Meets NoGap) (Cluster.initial fun _ => smallCfg)
      [.tick 0 1000, .take 0, .take 1, .ask 0 11, .ask 0 12, .ask 0 13, .take 3, .take 4, .take 5,
        .take 8, .tick 0 200, .take 9, .tick 1 0, .checkpoint 1 (wideEnv 0) 2, .tick 1 0] ∧
      c.up 0 = true ∧ c.up 1 = true ∧ (c.srv 1).log.front = 1 ∧
        (c.srv 0).entryFromIdx 3 = some ⟨1, 2, .normal, 13, ⟨2, 1⟩⟩ ∧
        (c.srv 1).entryFromIdx 3 = some ⟨1, 2, .normal, 13, ⟨2, 1⟩⟩ := by
    decide +kernel
  obtain ⟨c, path, upLeft, upRight, front, left, right⟩ := Path.exists_of_exec run
  exact ⟨c, _, _, front, left, right, log_matching (fun _ => smallCfg) (fun _ => le_refl 1) path
    upLeft upRight left right rfl⟩

/-- A duplicated first message, delivered after its entry was applied and released, is appended at
index 4, where the leader of the same term has another entry. -/
theorem log_matching_fails : ∃ (c : Cluster 2 Nat) (e e' : Entry (Fin 2) Nat),
    Path Cluster.step anyStep (Cluster.initial fun _ => smallCfg) c ∧
      c.up 0 = true ∧ c.up 1 = true ∧ (c.srv 0).entryFromIdx 4 = some e ∧
      (c.srv 1).entryFromIdx 4 = some e' ∧ e.term = e'.term ∧ e.data = 14 ∧ e'.data = 11 := by
  have run : ∃ c : Cluster 2 Nat, c ∈ exec Cluster.step anyStep (Cluster.initial fun _ => smallCfg)
      [.tick 0 1000, .take 0, .take 1, .ask 0 11, .ask 0 12, .ask 0 13, .take 3, .take 4, .take 5,
        .take 8, .tick 0 200, .take 9, .tick 1 0, .checkpoint 1 (wideEnv 0) 2, .tick 1 0, .take 3,
        .ask 0 14] ∧ c.up 0 = true ∧ c.up 1 = true ∧
        (c.srv 0).entryFromIdx 4 = some ⟨1, 3, .normal, 14, ⟨3, 1⟩⟩ ∧
        (c.srv 1).entryFromIdx 4 = some ⟨1, 3, .normal, 11, ⟨0, 0⟩⟩ := by
    decide +kernel
  obtain ⟨c, path, upLeft, upRight, left, right⟩ := Path.exists_of_exec run
  exact ⟨c, _, _, path, upLeft, upRight, left, right, rfl, rfl, rfl⟩

end Matching

/-! ## Acknowledged entries -/

section Acknowledged

variable {level : Level} {g : History n α} {i source : Fin n}
variable {s s' s'' : Server (Fin n) α} {ae : MsgAppendentries (Fin n) α}

/-- From `s` to `s'` only entries with an index above `m` were popped. -/
def PopsAbove (m : Int) (s s' : Server (Fin n) α) : Prop :=
  ∃ cs, s'.calls = s.calls ++ cs ∧ ∀ ety idx, .logPop ety idx ∈ cs → m ≤ idx

variable {m : Int}

theorem PopsAbove.trans (first : PopsAbove m s s') (second : PopsAbove m s' s'') :
    PopsAbove m s s'' := by
  obtain ⟨cs, calls, above⟩ := first
  obtain ⟨cs', calls', above'⟩ := second
  refine ⟨cs ++ cs', by rw [calls', calls, List.append_assoc], fun ety idx member => ?_⟩
  rcases List.mem_append.mp member with old | new
  · exact above ety idx old
  · exact above' ety idx new

theorem PopsAbove.new (pops : PopsAbove m s s') {ety : Entry (Fin n) α} {idx : Int}
    (popped : .logPop ety idx ∈ newCalls s s') : m ≤ idx := by
  obtain ⟨cs, calls, above⟩ := pops
  rw [newCalls, calls, List.drop_left] at popped
  exact above ety idx popped

/-- Sends and persists pop nothing. -/
theorem PopsAbove.of_quiet (quiet : Quiet s s') : PopsAbove m s s' := by
  obtain ⟨cs, calls, outward⟩ := quiet.calls
  refine ⟨cs, calls, fun ety idx member => ?_⟩
  cases outward _ member

variable {cut : Int}

/-- A cut pops what lies above it. -/
theorem PopsAbove.of_truncate (chain : IndexChain s) (above : s.commitIdx < cut)
    (inside : cut ≤ s.log.back) (low : m ≤ cut - 1) : PopsAbove m s (s.truncate cut) := by
  have front := chain.front_le
  have applied := chain.applied_le
  refine ⟨_, rfl, fun ety idx member => ?_⟩
  obtain ⟨p, popped, same⟩ := List.mem_map.mp member
  cases same
  have := ((mem_logDelete chain.wf (show s.log.front < cut by omega) inside).mp popped).1
  omega

theorem offers_pop (start : Int) (es : List (Entry (Fin n) α)) (ety : Entry (Fin n) α) (idx : Int)
    (member : .logPop ety idx ∈ offers start es) : m ≤ idx := by
  induction es generalizing start with
  | nil => cases member
  | cons e es ih =>
    rcases List.mem_cons.mp member with here | later
    · cases here
    · exact ih (start + 1) later

theorem PopsAbove.of_acceptEntries (fresh : List (Entry (Fin n) α)) :
    PopsAbove m s (s.acceptEntries ae fresh) := by
  have appended : PopsAbove m s (if fresh = [] then s else s.raftAppendEntryBatch fresh) := by
    split
    · exact ⟨[], by simp, by simp⟩
    · have core := (raftAppendEntryBatch_spec s fresh).core
      exact ⟨_, by rw [core], offers_pop _ _⟩
  refine appended.trans ⟨_, rfl, fun ety idx member => ?_⟩
  obtain ⟨e, -, same⟩ := List.mem_map.mp member
  cases same

/-- A call other than an appendentries pops nothing. -/
theorem popsAbove_step {env : Env α} {input : Input (Fin n) α}
    (other : ∀ source ae, input ≠ .recv source (.appendentries ae))
    (taken : s.step (env, input) = some s') : PopsAbove m s s' := by
  have light : ∀ t u, PopsAbove m s t → Light env input t u → PopsAbove m s u := by
    intro t u kept act
    refine kept.trans ?_
    rcases act.kinds with calm | ⟨ety, next⟩ | ⟨-, rfl⟩
    · obtain ⟨cs, calls, outward⟩ := calm.calls
      exact ⟨cs, calls, fun ety idx member => by cases outward _ member⟩
    · exact ⟨_, by rw [next.core], by simp⟩
    · unfold Server.compactLog
      split
      · exact ⟨[], by simp, by simp⟩
      · exact ⟨_, rfl, by simp⟩
  refine (step_course taken).keeps (I := PopsAbove m s) light ?_ ⟨[], by simp, by simp⟩
  intro t u kept _ act
  refine kept.trans ?_
  cases act with
  | submit _ submitted =>
    obtain ⟨cs, calls, above⟩ := PopsAbove.of_quiet (m := m) submitted.sent.quiet
    rw [submitted.appended.core, List.append_assoc] at calls
    refine ⟨_, by rw [submitted.ends]; exact calls, fun ety idx member => ?_⟩
    rcases List.mem_append.mp member with offered | sent
    · exact offers_pop _ _ ety idx offered
    · exact above ety idx sent
  | cut => exact absurd rfl (other _ _)
  | take => exact absurd rfl (other _ _)

variable {k : Nat}

/-- What a scan cuts never agreed with the chain of the message's term. -/
theorem Received.keeps_scan (keeps : level.keeps) (rc : Received level g i s source ae)
    (head : AeHead g ae k) {j : Nat} (scan : Scan s ae j (some cut)) :
    cut = (k : Int) + 1 ∧ cut ≤ s.log.back ∧
      ∀ m, (g.chain ae.term).take m <+: s.log.entries →
        (g.chain ae.term).take m <+: s.log.entries.take k := by
  have prev := head.prev
  have chain := rc.good.server.chain
  obtain ⟨above, ⟨empty, pos, rfl, long⟩ | ⟨place, e, x, at_, found, differ⟩⟩ := scan.cuts cut rfl
  · simp only [Server.currentIdx, logGetCurrentIdx] at long
    exact ⟨by omega, by omega, fun m pre =>
      rc.keeps_cut head keeps empty (by omega) (by omega) (by omega) pre⟩
  · obtain ⟨rfl, only⟩ := rc.sim.only at_
    rw [← place] at found
    have here := chain.wf.getAtIdx_some found
    rw [show (cut - 1).toNat = k by omega] at here
    refine ⟨by omega, (logGetAtIdx_bounds found).2, fun m pre => ?_⟩
    refine head.keeps_fresh only (fun y read => ?_) pre
    rw [here] at read
    cases read
    exact differ

/-- A cut at `k` that keeps what agreed with the chain keeps what was acknowledged. -/
theorem Received.acked_below (keeps : level.keeps) (rc : Received level g i s source ae)
    (above : s.commitIdx ≤ k) (kept : ∀ m, (g.chain ae.term).take m <+: s.log.entries →
      (g.chain ae.term).take m <+: s.log.entries.take k) : g.acked i ae.term ≤ k := by
  have holds := rc.good.server.holds keeps
  rw [rc.term] at holds
  rcases holds with pre | below
  · have short := (kept _ pre).length_le
    rw [List.length_take_of_le (rc.good.matched.acked_le i ae.term), List.length_take] at short
    omega
  · omega

/-- What a delivered appendentries pops, however it ends, when `m` lies below every cut that
keeps what agrees with the chain of the message's term. -/
theorem recvAppendentries_popsAbove (keeps : level.keeps) (good : Good level g i s)
    (packet : PacketSim level g ⟨source, i, .appendentries ae⟩) (admits : level.Admits s ae)
    (low : ∀ h : History n α, g.Le h → Received level h i (s.adopted ae) source ae → ∀ k : Nat,
      s.commitIdx ≤ k → (∀ m, (h.chain ae.term).take m <+: s.log.entries →
      (h.chain ae.term).take m <+: s.log.entries.take k) → m ≤ k) :
    PopsAbove m s (Server.after ((s.raftRecvAppendentries source ae).map Prod.fst)) := by
  have heard := PopsAbove.of_quiet (m := m) (sent_heard (fun _ => True) s ae).quiet
  have adopted := PopsAbove.of_quiet (m := m) (quiet_adopted s ae)
  have quiet := quiet_adopted s ae
  have receive := fun current => Received.of_adopted good packet admits current
  -- a cut where the message stands, on the server that adopted its term
  have cuts : s.currentTerm ≤ ae.term → ae.prevLogTerm ≠ -1 → ∀ j cut,
      Scan (s.adopted ae) ae j cut → PopsAbove m s ((s.adopted ae).taken ae j cut) := by
    intro current present j cut scan
    obtain ⟨h, moves, rc⟩ := receive current
    obtain ⟨k, head⟩ := rc.sim.head present
    refine adopted.trans (PopsAbove.trans ?_ (.of_acceptEntries _))
    cases cut with
    | none => exact ⟨[], by simp [Server.cutAt], by simp⟩
    | some cut =>
      obtain ⟨place, inside, kept⟩ := rc.keeps_scan keeps head scan
      have above := (scan.cuts cut rfl).1
      rw [quiet.log] at kept
      have below := low h moves.frame.le rc k (by rw [← quiet.commitIdx]; omega) kept
      exact .of_truncate rc.good.server.chain above inside (by omega)
  have outcome := raftRecvAppendentries_spec s source ae
  generalize s.raftRecvAppendentries source ae = result at outcome
  cases outcome with
  | exits behind => exact heard
  | stale older => exact heard
  | unvoting later silent => exact adopted
  | missing current pos absent => exact adopted
  | conflict present current pos e found differ above =>
    obtain ⟨h, moves, rc⟩ := receive current
    obtain ⟨k, head⟩ := rc.sim.head present
    have prev := head.prev
    have inside := (logGetAtIdx_bounds found).2
    have found' : (s.adopted ae).entryFromIdx k = some e := by
      rw [Server.entryFromIdx, quiet.log, ← prev]
      exact found
    have kept := fun m pre => head.conflict rc.good (by omega) found' differ (m := m) pre
    rw [quiet.log] at kept
    have below := low h moves.frame.le rc (k - 1) (by omega) kept
    exact adopted.trans (.of_truncate rc.good.server.chain (by rw [quiet.commitIdx]; exact above)
      (by rw [quiet.log]; exact inside) (by omega))
  | conflictFault present current pos e found differ below => exact adopted
  | checked present current agrees accepted =>
    cases accepted with
    | accept j cut scan t committed =>
      obtain ⟨core, -⟩ := followCommit_ok committed
      obtain ⟨cs, calls, above⟩ := cuts current present j cut scan
      exact ⟨cs, by rw [← calls, core]; rfl, above⟩
    | commitFault j cut scan f ended =>
      obtain ⟨h, -, rc⟩ := receive current
      obtain ⟨rfl, -⟩ := followCommit_error (advances_taken scan rc.good.server.chain).1 ended
      exact cuts current present j cut scan
    | emptyFault empty pos long below => exact adopted
    | scanFault j held conflict below => exact adopted

/-- Nothing the receiver has acknowledged in the message's term is popped. -/
theorem recvAppendentries_pops (keeps : level.keeps) (good : Good level g i s)
    (packet : PacketSim level g ⟨source, i, .appendentries ae⟩) (admits : level.Admits s ae) :
    PopsAbove (g.acked i ae.term) s
      (Server.after ((s.raftRecvAppendentries source ae).map Prod.fst)) := by
  refine recvAppendentries_popsAbove keeps good packet admits fun h le rc k above kept => ?_
  have quiet := quiet_adopted s ae
  rw [← quiet.log] at kept
  have below := rc.acked_below keeps (by rw [quiet.commitIdx]; exact above) kept
  have grows := le.acked i ae.term
  omega

/-- The conditions of stability: no message into the released part of a log, and no empty message
that cuts off an entry of its own term. -/
def Steady (s : Server (Fin n) α) (ae : MsgAppendentries (Fin n) α) : Prop :=
  NoGap s ae ∧ NoStaleCut s ae

instance (s : Server (Fin n) α) : DecidablePred (Steady s) :=
  fun ae => inferInstanceAs (Decidable (NoGap s ae ∧ NoStaleCut s ae))

theorem Steady.admits (steady : Steady s ae) : Level.steady.Admits s ae :=
  ⟨steady.1, fun _ => steady.2, False.elim⟩

/-- **Acknowledged entries are stable.**  Along every steady run: once a follower has told the
leader of a term that it holds `m` entries, the delivery of any appendentries of that term pops
only indices above `m` (`log_pop` is called with 0-based ones). -/
theorem acked_stable (cfg : Fin n → Config) (target : ∀ i, 1 ≤ (cfg i).logTarget)
    {c c' : Cluster n α}
    (run : Path Cluster.step (Cluster.Meets Steady) (Cluster.initial cfg) c)
    {leader source follower : Fin n} (other : follower ≠ leader) {r : MsgAppendentriesResponse}
    (acked : ⟨follower, leader, .appendentriesResponse r⟩ ∈ c.net) (success : r.success = true)
    {k : Nat} (sent : c.net[k]? = some ⟨source, follower, .appendentries ae⟩)
    (same : ae.term = r.term) {env : Env α} (meets : c.Meets Steady (.deliver k env))
    (taken : c.step (.deliver k env) = some c') {ety : Entry (Fin n) α} {idx : Int}
    (popped : .logPop ety idx ∈ newCalls (c.srv follower) (c'.srv follower)) :
    r.currentIdx ≤ idx := by
  have admits : Path Cluster.step (Cluster.Meets Level.steady.Admits) (Cluster.initial cfg) c :=
    run.mono fun t l meets => meets.mono fun s ae steady => steady.admits
  obtain ⟨g, sim⟩ := sim_run (two_le_of_ne other) cfg target admits
  obtain ⟨-, reach⟩ := (sim.packet _ acked).2 success
  obtain ⟨i, env', input, reply, called, running, rfl⟩ := step_call taken
  simp only [Cluster.callOf, sent, Option.map_some, Option.some.injEq, Prod.mk.injEq] at called
  obtain ⟨rfl, rfl, rfl, rfl⟩ := called
  have packet := sim.packet _ (List.mem_of_getElem? sent)
  have steady : Steady (c.srv follower) ae := meets _ sent
  have pops := recvAppendentries_pops (show Level.steady.keeps from trivial) (sim.good running)
    packet steady.admits
  have same_state :
      ((c.srv follower).handle env (.recv source (.appendentries ae))).map Prod.fst =
        ((c.srv follower).raftRecvAppendentries source ae).map Prod.fst := by
    simp only [Server.handle, Server.handleIncoming]
    cases (c.srv follower).raftRecvAppendentries source ae with
    | ok p => rfl
    | error f => rfl
  rw [call_srv, Function.update_self, same_state] at popped
  have above := pops.new popped
  rw [same] at above
  exact reach.trans above

/-- Server 1 acknowledges one entry to the leader of term 2, whose next entry then replaces the
second entry of server 1. -/
theorem acked_stable_replaced : ∃ (c c' : Cluster 3 Nat) (ety : Entry (Fin 3) Nat) (idx : Int),
    ⟨1, 0, .appendentriesResponse ⟨2, true, 1, 2⟩⟩ ∈ c.net ∧
      c.step (.deliver 16 (wideEnv 0)) = some c' ∧
      .logPop ety idx ∈ newCalls (c.srv 1) (c'.srv 1) ∧ 1 ≤ idx := by
  have run : ∃ c : Cluster 3 Nat,
      c ∈ exec Cluster.step (Cluster.Meets Steady) (Cluster.initial fun _ => smallCfg)
      [.tick 1 1000, .take 0, .take 2, .ask 1 11, .take 5, .ask 1 12, .tick 0 1000, .take 11,
        .take 12, .take 13, .ask 0 22] ∧ ⟨1, 0, .appendentriesResponse ⟨2, true, 1, 2⟩⟩ ∈ c.net ∧
          c.net[16]? =
            some ⟨0, 1, .appendentries ⟨2, 1, 1, 0, [⟨2, 1, .normal, 22, ⟨1, 1⟩⟩]⟩⟩ ∧
          c.Meets Steady (.deliver 16 (wideEnv 0)) ∧
          ∃ c' ∈ c.step (.deliver 16 (wideEnv 0)),
              .logPop ⟨1, 1, .normal, 12, ⟨1, 1⟩⟩ 1 ∈ newCalls (c.srv 1) (c'.srv 1) := by
    decide +kernel
  obtain ⟨c, path, acked, sent, meets, c', taken, popped⟩ := Path.exists_of_exec run
  exact ⟨c, c', _, _, acked, taken, popped, acked_stable (fun _ => smallCfg) (fun _ => le_refl 1)
    path (by decide) acked rfl sent rfl meets taken popped⟩

/-- Server 1 acknowledges three entries of term 1; a heartbeat of term 1 that was sent when the
leader had one entry then pops two of them. -/
theorem acked_stable_fails : ∃ (c c' : Cluster 3 Nat) (ety : Entry (Fin 3) Nat),
    Path Cluster.step anyStep (Cluster.initial fun _ => smallCfg) c ∧
      ⟨1, 0, .appendentriesResponse ⟨1, true, 3, 3⟩⟩ ∈ c.net ∧
      c.net[9]? = some ⟨0, 1, .appendentries ⟨1, 1, 1, 1, []⟩⟩ ∧
      c.step (.deliver 9 (wideEnv 0)) = some c' ∧
      .logPop ety 1 ∈ newCalls (c.srv 1) (c'.srv 1) ∧ ety.data = 12 := by
  have run : ∃ c : Cluster 3 Nat, c ∈ exec Cluster.step anyStep (Cluster.initial fun _ => smallCfg)
      [.tick 0 1000, .take 0, .take 2, .ask 0 11, .take 5, .take 6, .take 7, .tick 0 1000,
        .recvEntryBatch 0 (wideEnv 0) [(0, 12), (0, 13)], .take 11, .take 12] ∧
      ⟨1, 0, .appendentriesResponse ⟨1, true, 3, 3⟩⟩ ∈ c.net ∧
          c.net[9]? = some ⟨0, 1, .appendentries ⟨1, 1, 1, 1, []⟩⟩ ∧
          ∃ c' ∈ c.step (.deliver 9 (wideEnv 0)),
              .logPop ⟨1, 1, .normal, 12, ⟨1, 1⟩⟩ 1 ∈ newCalls (c.srv 1) (c'.srv 1) := by
    decide +kernel
  obtain ⟨c, path, acked, sent, c', taken, popped⟩ := Path.exists_of_exec run
  exact ⟨c, c', _, path, acked, sent, taken, popped, rfl⟩

end Acknowledged

/-! ## Agreement of applied entries -/

section Applied

/-- Two covered logs agree wherever both reach. -/
theorem Covered.agree {g : History n α} (matched : g.Matched Entry.term) (safe : g.Safe)
    {t t' : Int} {l l' : List (Entry (Fin n) α)} (left : Covered g t l) (right : Covered g t' l')
    {k : Nat} {e e' : Entry (Fin n) α} (at_ : l[k]? = some e) (at' : l'[k]? = some e') : e = e' := by
  rcases left with rfl | ⟨u, m, -, committed, inside⟩
  · cases at_
  · rcases right with rfl | ⟨u', m', -, committed', inside'⟩
    · cases at'
    · have short := (List.getElem?_eq_some_iff.mp at_).1
      have short' := (List.getElem?_eq_some_iff.mp at').1
      rw [← getElem?_prefix_eq inside short] at at_
      rw [← getElem?_prefix_eq inside' short'] at at'
      rcases safe.agreement matched committed committed' with pre | pre
      · rw [← getElem?_prefix_eq pre (List.getElem?_eq_some_iff.mp at_).1, at'] at at_
        exact (Option.some.inj at_).symm
      · rw [← getElem?_prefix_eq pre (List.getElem?_eq_some_iff.mp at').1, at_] at at'
        exact Option.some.inj at'

/-- The conditions of agreement: no message into the released part of a log, no empty message that
cuts off an entry of its own term, no commit past a message onto an entry of an earlier term. -/
def Orderly (s : Server (Fin n) α) (ae : MsgAppendentries (Fin n) α) : Prop :=
  NoGap s ae ∧ NoStaleCut s ae ∧ NoStaleCommit s ae

instance (s : Server (Fin n) α) : DecidablePred (Orderly s) :=
  fun ae => inferInstanceAs (Decidable (NoGap s ae ∧ NoStaleCut s ae ∧ NoStaleCommit s ae))

theorem Orderly.admits {s : Server (Fin n) α} {ae : MsgAppendentries (Fin n) α}
    (orderly : Orderly s ae) (level : Level) : level.Admits s ae :=
  ⟨orderly.1, fun _ => orderly.2.1, fun _ => orderly.2.2⟩

/-- **State machine safety.**  Along every orderly run, two servers that applied an entry at an
index applied the same one. -/
theorem state_machine_safety (cfg : Fin n → Config) (target : ∀ i, 1 ≤ (cfg i).logTarget)
    {c : Cluster n α} (run : Path Cluster.step (Cluster.Meets Orderly) (Cluster.initial cfg) c)
    {i j : Fin n} (other : i ≠ j) {idx : Int} {e e' : Entry (Fin n) α}
    (left : (e, idx) ∈ appliedOf (c.srv i).calls) (right : (e', idx) ∈ appliedOf (c.srv j).calls) :
    e = e' := by
  have admits : Path Cluster.step (Cluster.Meets Level.safe.Admits) (Cluster.initial cfg) c :=
    run.mono fun t l meets => meets.mono fun s ae orderly => orderly.admits _
  obtain ⟨g, sim⟩ := sim_run (two_le_of_ne other) cfg target admits
  obtain ⟨l, applied, covered⟩ := sim.applied i
  obtain ⟨l', applied', covered'⟩ := sim.applied j
  obtain ⟨t, inside⟩ := covered trivial
  obtain ⟨t', inside'⟩ := covered' trivial
  rw [applied, mem_indexed] at left
  rw [applied', mem_indexed] at right
  obtain ⟨k, rfl, at_⟩ := left
  obtain ⟨k', same, at'⟩ := right
  obtain rfl : k = k' := by omega
  exact inside.agree sim.matched (sim.safe trivial) inside' at_ at'

/-- One entry, replicated to a second server and applied by both. -/
theorem state_machine_safety_replicated : ∃ (c : Cluster 3 Nat) (e e' : Entry (Fin 3) Nat),
    (e, 0) ∈ appliedOf (c.srv 0).calls ∧ (e', 0) ∈ appliedOf (c.srv 1).calls ∧ e = e' := by
  have run : ∃ c : Cluster 3 Nat,
      c ∈ exec Cluster.step (Cluster.Meets Orderly) (Cluster.initial fun _ => smallCfg)
      [.tick 0 1000, .take 0, .take 2, .ask 0 11, .take 5, .take 7, .tick 0 1000, .take 8,
        .tick 1 0] ∧ (⟨1, 0, .normal, 11, ⟨0, 0⟩⟩, 0) ∈ appliedOf (c.srv 0).calls ∧
          (⟨1, 0, .normal, 11, ⟨0, 0⟩⟩, 0) ∈ appliedOf (c.srv 1).calls := by
    decide +kernel
  obtain ⟨c, path, left, right⟩ := Path.exists_of_exec run
  exact ⟨c, _, _, left, right, state_machine_safety (fun _ => smallCfg) (fun _ => le_refl 1) path
    (by decide) left right⟩

/-- Server 1 acknowledges three entries, which server 0 commits and applies; a held heartbeat then
cuts two of them off, and server 1, elected with the votes of servers 1 and 2, replaces them. -/
theorem state_machine_safety_fails : ∃ (c : Cluster 3 Nat) (e e' : Entry (Fin 3) Nat),
    Path Cluster.step anyStep (Cluster.initial fun _ => smallCfg) c ∧
      (e, 1) ∈ appliedOf (c.srv 0).calls ∧ (e', 1) ∈ appliedOf (c.srv 1).calls ∧
      e.data = 12 ∧ e'.data = 22 := by
  have run : ∃ c : Cluster 3 Nat, c ∈ exec Cluster.step anyStep (Cluster.initial fun _ => smallCfg)
      [.tick 0 1000, .take 0, .take 2, .ask 0 11, .take 5, .take 6, .take 7, .tick 0 1000,
        .recvEntryBatch 0 (wideEnv 0) [(0, 12), (0, 13)], .take 11, .take 12, .take 16, .take 9,
        .tick 1 1000, .take 19, .take 20, .ask 1 22, .take 24, .take 25] ∧
      (⟨1, 1, .normal, 12, ⟨1, 1⟩⟩, 1) ∈ appliedOf (c.srv 0).calls ∧
          (⟨2, 1, .normal, 22, ⟨1, 1⟩⟩, 1) ∈ appliedOf (c.srv 1).calls := by
    decide +kernel
  obtain ⟨c, path, left, right⟩ := Path.exists_of_exec run
  exact ⟨c, _, _, path, left, right, rfl, rfl⟩

end Applied

end Cyclone
