/-
# Cluster.Replication — appends, acknowledgements and the commit index

The handlers that move the history's chains.  A leader's append extends the chain of its term
(`extend`).  A follower's log moves toward that chain (`accept`).  A leader counts
acknowledgements, and what it commits is a committed cut (`Good.advance`).
-/
import Cyclone.Cluster.Elections
import Mathlib.Data.Finset.Max

namespace Cyclone

open Cyclone.Raft Cyclone.Theory

set_option autoImplicit false

variable {n : Nat} {α : Type}
variable {level : Level} {i : Fin n} {g : History n α} {s s' : Server (Fin n) α}

/-! ## A leader appends -/

variable {ι : Type} {prev : Option (Entry ι α)}

/-- Before an append's entry number `k` stands entry `l.length + k - 1` of the log. -/
theorem termBefore_append {l es : List (Entry ι α)}
    (last : prev = if 0 < l.length then l[l.length - 1]? else none) (k : Nat) :
    termBefore none (l ++ es) (l.length + k) = termBefore prev es k := by
  cases k with
  | zero =>
    rw [last, Nat.add_zero]
    cases size : l.length with
    | zero => rfl
    | succ m =>
      rw [if_pos (by omega)]
      simp only [termBefore, Nat.add_sub_cancel]
      rw [List.getElem?_append_left (by omega)]
  | succ k =>
    rw [← Nat.add_assoc]
    simp only [termBefore]
    rw [List.getElem?_append_right (by omega), Nat.add_sub_cancel_left]

/-- What a leader's offer stamps continues a stamped log. -/
theorem Stamped.append {l es : List (Entry ι α)} (stamped : Stamped l)
    (last : prev = if 0 < l.length then l[l.length - 1]? else none)
    (plain : ∀ e ∈ es, e.type = .normal ∧ 0 ≤ e.term) :
    Stamped (l ++ stampFrom true prev l.length es) := by
  intro k e at_
  by_cases old : k < l.length
  · rw [List.getElem?_append_left old] at at_
    rw [termBefore_starts (List.prefix_append l _) (le_of_lt old)]
    exact stamped k e at_
  · rw [List.getElem?_append_right (by omega)] at at_
    obtain ⟨id, head⟩ := stampFrom_head at_
    have shift : (l.length : Int) + ((k - l.length : Nat) : Int) = k := by omega
    rw [shift] at id head
    have member := List.mem_of_getElem? at_
    have kept : e.type = .normal ∧ 0 ≤ e.term :=
      stampFrom_forall (P := fun e => e.type = .normal ∧ 0 ≤ e.term) (fun _ _ _ plain => plain)
        plain e member
    refine ⟨id, head.trans ?_, kept⟩
    rw [← termBefore_append last, show l.length + (k - l.length) = k by omega]

theorem prevEntry_eq (chain : IndexChain s) :
    s.prevEntry =
      if 0 < s.log.entries.length then s.log.entries[s.log.entries.length - 1]? else none := by
  have length := chain.wf.length_eq
  unfold Server.prevEntry
  by_cases some_ : 0 < s.log.back
  · rw [if_pos some_, if_pos (by omega),
      show (s.log.back - 1).toNat = s.log.entries.length - 1 by omega]
  · rw [if_neg some_, if_neg (by omega)]

theorem packetsOf_offers (idx : Int) (es : List (Entry (Fin n) α)) :
    packetsOf i (offers idx es) = [] := by
  induction es generalizing idx with
  | nil => rfl
  | cons e es ih => exact ih (idx + 1)

variable {es : List (Entry (Fin n) α)}

theorem frame_extend (matched : g.Matched Entry.term) (leads : g.led (g.cur i) = some i)
    (same : g.log i = g.chain (g.cur i)) : Frame i g (g.extend i es) := by
  refine ⟨TermChain.le_extend same matched, fun _ _ => rfl, fun j other => ?_, fun _ _ _ => rfl,
    fun j other t => ?_, fun _ _ _ led => led, fun j other t led => ?_⟩
  · rw [TermChain.extend_log, if_neg other]
  · rw [TermChain.extend_acked, if_neg fun both => other both.1]
  · rw [TermChain.extend_chain]
    split
    · rename_i here
      rw [here, leads] at led
      exact absurd (Option.some.inj led).symm other
    · rfl

section Append

variable (good : Good level g i s) (leader : s.state = .leader)
  (plain : ∀ e ∈ es, e.type = .normal ∧ e.term = s.currentTerm)
  (appended : Appended s s' (stampFrom s.cycloneIsLeader s.prevEntry s.log.back es))
include good leader plain appended

/-- A leader appends plain entries of its term. -/
theorem Moves.of_append : ∃ g', Moves level i g s g' s' := by
  have sim := good.server
  obtain ⟨led, log, acked⟩ := sim.leads leader
  have length := sim.chain.wf.length_eq
  have low := sim.chain.applied_le
  have high := sim.chain.commit_le
  have isLeader : s.cycloneIsLeader = true := by simp [Server.cycloneIsLeader, leader]
  rw [isLeader, ← length] at appended
  have chain := (appended.advances sim.chain).1
  obtain ⟨fresh, stamps⟩ : ∃ fresh, fresh = stampFrom true s.prevEntry s.log.entries.length es :=
    ⟨_, rfl⟩
  rw [← stamps] at appended
  have kept : ∀ e ∈ fresh, e.type = .normal ∧ e.term = s.currentTerm := by
    rw [stamps]
    exact stampFrom_forall (P := fun e => e.type = .normal ∧ e.term = s.currentTerm)
      (fun _ _ _ plain => plain) plain
  have core := appended.core
  rw [applyCfg_normal s fun e member => (kept e member).1] at core
  have entries := appended.grown.entries_eq
  have leads' : g.led (g.cur i) = some i := by rw [sim.cur]; exact led
  have same : g.log i = g.chain (g.cur i) := by rw [sim.cur, sim.log]; exact log
  have own : ∀ e ∈ fresh, e.term = g.cur i := by
    intro e member
    rw [sim.cur]
    exact (kept e member).2
  have frame : Frame i g (g.extend i fresh) := frame_extend good.matched leads' same
  have chained : (g.extend i fresh).chain s.currentTerm = s.log.entries ++ fresh := by
    rw [TermChain.extend_chain, if_pos sim.cur.symm, sim.log]
  have term : s'.currentTerm = s.currentTerm := by rw [core]
  have commit : s'.commitIdx = s.commitIdx := by rw [core]
  have state : s'.state = .leader := by rw [core]; exact leader
  have calls : s'.calls = s.calls ++ offers s.log.back fresh := by rw [core]
  refine ⟨g.extend i fresh, frame, ⟨good.matched.extend leads' same own, ?_, fun agrees => ?_, ?_⟩,
    _, calls, ?_⟩
  · intro t
    rw [TermChain.extend_chain]
    split
    · rw [sim.log, stamps]
      refine Stamped.append ?_ (prevEntry_eq sim.chain) fun e member => ?_
      · rw [log]
        exact good.stamped _
      · exact ⟨(plain e member).1, (plain e member).2 ▸ sim.term_nonneg⟩
    · exact good.stamped t
  · exact (good.safe agrees).extend same good.matched
  · exact
      { chain := chain
        node := by rw [core]; exact sim.node
        replicas := by rw [core]; exact sim.replicas
        members := by rw [core]; exact sim.members
        term_nonneg := term ▸ sim.term_nonneg
        cur := sim.cur.trans term.symm
        log := by rw [TermChain.extend_log, if_pos rfl, sim.log, entries]
        vote := by rw [core]; exact sim.vote
        self := fun _ => by
          rw [show s'.votedFor = s.votedFor by rw [core]]
          exact sim.self (by rw [leader]; exact Role.noConfusion)
        leads := fun _ => by
          rw [term, entries, chained]
          refine ⟨led, rfl, ?_⟩
          rw [TermChain.extend_acked, if_pos ⟨rfl, sim.cur.symm⟩, sim.log]
        follows := fun role => absurd state role
        stands := fun role => by rw [state] at role; cases role
        voters := fun role => by rw [state] at role; cases role
        matches_ := fun _ nd member peer => by
          rw [term, TermChain.extend_acked, if_neg fun both => peer both.1]
          rw [show s'.nodes = s.nodes by rw [core]] at member
          exact sim.matches_ leader nd member peer
        holds := fun _ => Or.inl (by
          rw [term, chained, entries]
          exact List.take_prefix _ _)
        commits := fun agrees => by
          rw [term, entries, commit, List.take_append_of_le_length (by omega)]
          exact (sim.commits agrees).mono good.matched frame.le (le_refl _) }
  · rw [packetsOf_offers]
    simp

/-- The end of the entry handlers: what a leader appends is followed by a round of sends. -/
theorem Good.append_sends (two : 2 ≤ n) (env : Env α) :
    ∃ g', s'.nodes ≠ [] ∧ (s'.sendRound env).nodes.length ≠ 1 ∧ Moves level i g s g' (s'.sendRound env) := by
  obtain ⟨g', grows⟩ := Moves.of_append good leader plain appended
  have state : s'.state = .leader := by
    rw [appended.core, applyCfg_core]
    exact leader
  have sends := grows.trans (.of_sent grows.good state (sent_sendRound env s'))
  refine ⟨g', grows.good.server.seated.not_nil, ?_, sends⟩
  rw [sends.good.server.seated.length]
  omega

end Append

theorem recvEntry_moves (two : 2 ≤ n) (env : Env α) (good : Good level g i s)
    {e : MsgEntry (Fin n) α} (plain : e.type = .normal) :
    ∃ s' r g', s.raftRecvEntry env e = .ok (s', r) ∧ Moves level i g s g' s' := by
  have unvoting : (Server.entryOf s.currentTerm e).isVotingCfgChange = false := by
    simp [Entry.isVotingCfgChange, Server.entryOf, plain]
  unfold Server.raftRecvEntry
  simp only [unvoting, Bool.false_eq_true, false_and, if_false]
  by_cases leader : s.state = .leader
  · rw [if_neg (not_not.mpr leader)]
    have appended := raftAppendEntry_spec s (Server.entryOf s.currentTerm e)
    have each : ∀ x ∈ [Server.entryOf s.currentTerm e],
        x.type = .normal ∧ x.term = s.currentTerm := by
      intro x member
      obtain rfl := List.mem_singleton.mp member
      exact ⟨plain, rfl⟩
    obtain ⟨h, some_, several, sends⟩ := good.append_sends leader each appended two env
    rw [if_neg some_, if_neg several]
    exact ⟨_, _, h, rfl, sends⟩
  · rw [if_pos leader]
    exact ⟨s, _, g, rfl, .refl good⟩

/-- A batch of plain entries has no voting change. -/
theorem detectVotingCfgChange_plain (plain : ∀ e ∈ es, e.type = .normal) (idx detected : Int) :
    Server.detectVotingCfgChange es idx detected = some detected := by
  induction es generalizing idx with
  | nil => rfl
  | cons e es ih =>
    have unvoting : e.isVotingCfgChange = false := by
      simp [Entry.isVotingCfgChange, plain e List.mem_cons_self]
    rw [Server.detectVotingCfgChange, unvoting]
    exact ih (fun x later => plain x (List.mem_cons_of_mem e later)) (idx + 1)

theorem recvEntryBatch_moves (two : 2 ≤ n) (env : Env α) (good : Good level g i s)
    {es : List (MsgEntry (Fin n) α)} (plain : ∀ e ∈ es, e.type = .normal) :
    ∃ s' r g', s.raftRecvEntryBatch env es = .ok (s', r) ∧ Moves level i g s g' s' := by
  have each : ∀ x ∈ es.map (Server.entryOf s.currentTerm),
      x.type = .normal ∧ x.term = s.currentTerm := by
    intro x member
    obtain ⟨e, inside, rfl⟩ := List.mem_map.mp member
    exact ⟨plain e inside, rfl⟩
  unfold Server.raftRecvEntryBatch
  by_cases leader : s.state = .leader
  · rw [if_neg (not_not.mpr leader)]
    simp only [detectVotingCfgChange_plain fun x member => (each x member).1]
    have appended := raftAppendEntryBatch_spec s (es.map (Server.entryOf s.currentTerm))
    obtain ⟨h, some_, several, sends⟩ := good.append_sends leader each appended two env
    change ∃ s' r g', (if (s.raftAppendEntryBatch (es.map (Server.entryOf s.currentTerm))).nodes = []
      then _ else _) = _ ∧ _
    rw [if_neg some_, if_neg several]
    exact ⟨_, _, h, rfl, sends⟩
  · rw [if_pos leader]
    exact ⟨s, _, g, rfl, .refl good⟩

/-! ## A leader counts -/

variable {source : Fin n} {idx : Int}

/-- An acknowledgement of the current term is noted. -/
theorem Good.noteMatch (good : Good level g i s) (leader : s.state = .leader)
    (acked : idx ≤ (g.acked source s.currentTerm : Int)) (next : Node (Fin n) → Int) :
    Good level g i (s.updNode source fun nd => (nd.setNextIdx (next nd)).setMatchIdx idx) := by
  refine good.updNode (f := fun nd => (nd.setNextIdx (next nd)).setMatchIdx idx) (fun _ => rfl) source
    (fun role => ?_) fun _ _ => acked
  rw [leader] at role
  cases role

variable {point : Int}

/-- What the leader's count commits is a committed cut. -/
theorem Good.counted (two : 2 ≤ n) (good : Good level g i s) (leader : s.state = .leader)
    (votes : s.numVotingNodes / 2 < 1 + s.nodes.countP (s.countsFor point)) :
    ∃ m, g.Committed s.currentTerm m ∧ point ≤ (m : Int) := by
  have sim := good.server
  obtain ⟨led, log, acked⟩ := sim.leads leader
  have length := sim.chain.wf.length_eq
  let counted := s.nodes.filter (s.countsFor point)
  rw [sim.seated.numVoting, List.countP_eq_length_filter] at votes
  have spec : ∀ nd ∈ counted, nd ∈ s.nodes ∧ nd.id ≠ i ∧ 0 < nd.matchIdx ∧ point ≤ nd.matchIdx ∧
      ∃ e, s.entryFromIdx nd.matchIdx = some e ∧ e.term = s.currentTerm := by
    intro nd kept
    obtain ⟨member, passes⟩ := List.mem_filter.mp kept
    unfold Server.countsFor at passes
    cases found : s.entryFromIdx nd.matchIdx with
    | none => simp [found] at passes
    | some e =>
      simp only [found, sim.node, Option.some.injEq, Bool.and_eq_true, decide_eq_true_eq,
        Bool.not_eq_true', decide_eq_false_iff_not, not_or] at passes
      obtain ⟨⟨⟨other, -⟩, pos⟩, own, reach⟩ := passes
      exact ⟨member, fun self => other self.symm, pos, reach, e, rfl, own⟩
  have some_ : counted ≠ [] := by
    intro none_
    have zero : (s.nodes.filter (s.countsFor point)).length = 0 := by
      rw [show s.nodes.filter (s.countsFor point) = [] from none_]
      rfl
    omega
  -- the cut is at the least of the counted matches, whose entry is of the current term
  obtain ⟨least, kept, minimal⟩ := Finset.exists_min_image counted.toFinset Node.matchIdx
    (by simpa [List.toFinset_nonempty_iff] using some_)
  obtain ⟨-, -, pos, reach, e, found, own⟩ := spec least (List.mem_toFinset.mp kept)
  obtain ⟨-, high⟩ := logGetAtIdx_bounds found
  have at_ := sim.chain.wf.getAtIdx_some found
  refine ⟨least.matchIdx.toNat, ⟨?_, ?_, (i :: counted.map (·.id)).toFinset, ?_, ?_⟩, by omega⟩
  · by_contra below
    rw [log] at at_
    have older := good.matched.base_below led (show (least.matchIdx - 1).toNat <
      g.base s.currentTerm by omega) at_
    omega
  · rw [← log]
    omega
  · apply majority_of_nodup
    · refine List.nodup_cons.mpr ⟨fun mine => ?_, (List.filter_sublist.map _).nodup sim.seated.nodup⟩
      obtain ⟨nd, inside, same⟩ := List.mem_map.mp mine
      exact (spec nd inside).2.1 same
    · rw [Fintype.card_fin]
      simp only [List.length_cons, List.length_map]
      change n < 2 * ((s.nodes.filter (s.countsFor point)).length + 1)
      omega
  · intro j member
    rcases List.mem_cons.mp (List.mem_toFinset.mp member) with rfl | later
    · rw [acked]
      omega
    · obtain ⟨nd, inside, rfl⟩ := List.mem_map.mp later
      obtain ⟨inNodes, other, -⟩ := spec nd inside
      have bound := sim.matches_ leader nd inNodes other
      have least := minimal nd (List.mem_toFinset.mpr inside)
      omega

/-- The commit rule. -/
theorem Good.advance (two : 2 ≤ n) (good : Good level g i s) (leader : s.state = .leader)
    (inside : point ≤ s.currentIdx) :
    ∃ s', s.advanceCommit point = .ok s' ∧ Good level g i s' ∧ s'.calls = s.calls ∧
      s'.state = .leader ∧ s'.nodes = s.nodes := by
  have sim := good.server
  obtain ⟨led, log, acked⟩ := sim.leads leader
  unfold Server.advanceCommit
  by_cases counts : s.numVotingNodes / 2 < 1 + s.nodes.countP (s.countsFor point) ∧
      s.commitIdx < point
  · simp only [if_pos counts, Server.setCommitIdx, if_pos (le_of_lt counts.2), if_pos inside]
    refine ⟨_, rfl, ⟨good.matched, good.stamped, good.safe, ?_⟩, rfl, leader, rfl⟩
    refine { sim with
      chain := (advances_commit (le_of_lt counts.2) inside sim.chain).1
      holds := fun keeps => ?_
      commits := fun agrees => ?_ }
    · rcases sim.holds keeps with pre | below
      · exact Or.inl pre
      · exact Or.inr (below.trans (le_of_lt counts.2))
    · obtain ⟨m, committed, reach⟩ := good.counted two leader counts.1
      refine Or.inr ⟨s.currentTerm, m, le_refl _, committed, ?_⟩
      change s.log.entries.take point.toNat <+: _
      rw [log]
      exact List.take_prefix_take_left (by omega)
  · simp only [if_neg counts]
    exact ⟨s, rfl, good, rfl, leader, rfl⟩

/-- A positive answer of the current term. -/
theorem ackReceived_moves (two : 2 ≤ n) (env : Env α) (good : Good level g i s)
    (leader : s.state = .leader) {nd : Node (Fin n)} (peer : s.node ≠ some nd.id)
    (member : nd ∈ s.nodes) (reach : idx ≤ (g.acked nd.id s.currentTerm : Int))
    (inside : idx ≤ s.currentIdx) :
    ∃ s' g', s.ackReceived env nd idx = .ok s' ∧ Moves level i g s g' s' := by
  have noted := good.noteMatch leader reach fun nd => max (idx + 1) nd.nextIdx
  have calls : (s.updNode nd.id fun nd =>
      (nd.setNextIdx (max (idx + 1) nd.nextIdx)).setMatchIdx idx).calls = s.calls := rfl
  have promoted : ∀ t : Server (Fin n) α, t.promote env nd idx = .ok t := by
    intro t
    rw [Server.promote, good.server.seated.voting member]
    simp
  unfold Server.ackReceived
  rw [if_neg (by omega)]
  simp only [promoted]
  have state : (s.updNode nd.id fun nd =>
      (nd.setNextIdx (max (idx + 1) nd.nextIdx)).setMatchIdx idx).state = .leader := leader
  have node : (s.updNode nd.id fun nd =>
      (nd.setNextIdx (max (idx + 1) nd.nextIdx)).setMatchIdx idx).node = s.node := rfl
  have inside' : idx ≤ (s.updNode nd.id fun nd =>
      (nd.setNextIdx (max (idx + 1) nd.nextIdx)).setMatchIdx idx).currentIdx := inside
  generalize (s.updNode nd.id fun nd =>
      (nd.setNextIdx (max (idx + 1) nd.nextIdx)).setMatchIdx idx) = t
    at noted calls state node inside'
  obtain ⟨u, advanced, good', calls', leader', -⟩ := noted.advance two state inside'
  simp only [advanced]
  have counted : Moves level i g s g u :=
    ⟨.refl i g, good', [], by rw [calls', calls, List.append_nil], by simp [packetsOf]⟩
  have target : u.node ≠ some nd.id := by
    rw [good'.server.node, ← good.server.node]
    exact peer
  have sent : Sent (fun id => u.node ≠ some id) u
      (if ((u.getNode nd.id).bind fun nd => u.entryFromIdx nd.nextIdx).isSome = true then
        u.raftSendAppendentries env nd.id else u) := by
    split
    · exact sent_raftSendAppendentries env _ u nd.id target
    · exact Sent.refl _ u
  have sends := counted.trans (Moves.of_sent good' leader' sent)
  generalize (if ((u.getNode nd.id).bind fun nd => u.entryFromIdx nd.nextIdx).isSome = true then
        u.raftSendAppendentries env nd.id else u) = v at sends
  cases ran : v.applyCommitted env with
  | error f => exact absurd ran sends.good.applies
  | ok p => exact ⟨p.1, g, rfl, sends.trans (.of_apply sends.good ran)⟩

/-- How the answer to an appendentries ends: only a refused answer can fail an assertion. -/
theorem recvAppendentriesResponse_moves (two : 2 ≤ n) (env : Env α) (good : Good level g i s)
    {r : MsgAppendentriesResponse}
    (packet : PacketSim level g ⟨source, i, .appendentriesResponse r⟩) :
    (∃ s' g', s.raftRecvAppendentriesResponse env source r = .ok s' ∧ Moves level i g s g' s') ∨
      ∃ f, s.raftRecvAppendentriesResponse env source r = .error f ∧ Internal s f.server ∧
        f.cause = .assertion 326 ∧ s.state = .leader ∧ r.term = s.currentTerm ∧ r.success = false ∧
        ∃ nd, s.getNode source = some nd ∧ ¬ (r.currentIdx ≤ nd.matchIdx ∧ nd.matchIdx ≠ 0) ∧
          (nd.setNextIdx (min (r.currentIdx + 1) s.currentIdx)).nextIdx ≤ nd.matchIdx := by
  have sim := good.server
  have other : source ≠ i := packet.1
  unfold Server.raftRecvAppendentriesResponse
  cases found : s.getNode source with
  | none => exact Or.inl ⟨s, g, rfl, .refl good⟩
  | some nd =>
    obtain ⟨member, rfl⟩ := mem_of_getNode found
    simp only
    split
    · exact Or.inl ⟨s, g, rfl, .refl good⟩
    · rename_i news
      split
      · exact Or.inl ⟨s, g, rfl, .refl good⟩
      · rename_i role
        have leader := not_not.mp role
        have peer : s.node ≠ some nd.id := by
          rw [sim.node]
          exact fun self => other (Option.some.inj self).symm
        split
        · rename_i later
          exact Or.inl ⟨_, _, rfl, .of_raise good later⟩
        · split
          · exact Or.inl ⟨s, g, rfl, .refl good⟩
          · rename_i same
            have same := not_not.mp same
            split
            · rename_i refused
              split
              · have moved : Sent (fun id => s.node ≠ some id) s (s.updNode nd.id
                    (·.setNextIdx (min (r.currentIdx + 1) s.currentIdx))) :=
                  sent_updNode (fun nd => nd.bare_setNextIdx _) _ s nd.id
                exact Or.inl ⟨_, g, rfl, .of_sent good leader
                  (moved.trans (sent_raftSendAppendentries env _ _ nd.id peer))⟩
              · rename_i stuck
                exact Or.inr ⟨_, rfl, .of_calls rfl, rfl, leader, same.symm, refused, nd, rfl,
                  news, not_lt.mp stuck⟩
            · rename_i success
              left
              obtain ⟨-, reach⟩ := packet.2 (by simpa using success)
              rw [← same] at reach
              have inside : r.currentIdx ≤ s.currentIdx := by
                obtain ⟨-, log, -⟩ := sim.leads leader
                have bound := good.matched.acked_le nd.id s.currentTerm
                have length := sim.chain.wf.length_eq
                rw [← log] at bound
                simp only [Server.currentIdx, logGetCurrentIdx]
                simp only at reach
                omega
              exact ackReceived_moves two env good leader peer member reach inside

end Cyclone
