/-
# Raft.Batch — a batch against its entries one by one

`raft_recv_entry_batch` repeats the checks, the append, the round of sends and the
answers of `raft_recv_entry` with loops of its own.  Both are given here over any offer
callbacks (`raftRecvEntryWith`, `raftRecvEntryBatchWith`); Cyclone's are one instance
(`raftRecvEntryWith_cyclone`, `raftRecvEntryBatchWith_cyclone`).

With callbacks that leave the entries alone the two submissions write the same log and
move the same cursors (`Took`).  They do not give the same answers: the loop that fills
the response array advances the response and not the entry, and reads the index
of the last entry, so only a batch of one is answered as `raft_recv_entry` answers it.
A batch that is refused is refused before anything is written.
-/
import Cyclone.Raft.Effects

namespace Cyclone.Raft

set_option autoImplicit false

variable {ι α : Type}

/-! ## Submission over any offer callbacks -/

/-- `log_offer` and `log_offer_batch` of `raft_cbs_t`: the server and the entries they leave. -/
structure Offers (ι α : Type) where
  logOffer : Server ι α → Entry ι α → Option (Entry ι α) → Int → Server ι α × Entry ι α
  logOfferBatch :
    Server ι α → List (Entry ι α) → Option (Entry ι α) → Int → Server ι α × List (Entry ι α)

/-- Normal entries pass the callbacks as they are, and the server only takes note of the call. -/
structure Offers.Passive (o : Offers ι α) : Prop where
  one : ∀ s e prev idx, e.type = .normal →
    ∃ calls, o.logOffer s e prev idx = ({ s with calls := calls }, e)
  batch : ∀ s es prev idx, (∀ e ∈ es, e.type = .normal) →
    ∃ calls, o.logOfferBatch s es prev idx = ({ s with calls := calls }, es)

namespace Server

variable [DecidableEq ι]

/-- What `raft_recv_entry` and `raft_recv_entry_batch` do once the entries are in the log: the
round of sends, and the commit of a lone node. -/
def spread (env : Env α) (s : Server ι α) : Server ι α :=
  let s := s.sendRound env
  if s.nodes.length = 1 then { s with commitIdx := s.currentIdx } else s

/-- `raft_recv_entry`. -/
def raftRecvEntryWith (o : Offers ι α) (env : Env α) (s : Server ι α) (e : MsgEntry ι α) :
    Except (Fault ι α) (Server ι α × Except EntryError MsgEntryResponse) :=
  let ety := entryOf s.currentTerm e
  if ety.isVotingCfgChange ∧ s.votingCfgChangeLogIdx ≠ -1 then
    .ok (s, .error .oneVotingChangeOnly)
  else if s.state ≠ .leader then .ok (s, .error .notLeader)
  else
    let offered := o.logOffer s ety s.prevEntry s.log.back
    let s : Server ι α := { offered.1 with log := logAppendEntry s.log offered.2 }
    if s.nodes = [] then .error ⟨.undefined, s⟩
    else
      let s := s.spread env
      let r : MsgEntryResponse := { id := e.id, idx := s.currentIdx, term := s.currentTerm }
      let s := if ety.isVotingCfgChange then { s with votingCfgChangeLogIdx := s.currentIdx } else s
      .ok (s, .ok r)

/-- `raft_recv_entry_batch`: `e` stays at the first entry while the responses are filled. -/
def raftRecvEntryBatchWith (o : Offers ι α) (env : Env α) (s : Server ι α)
    (es : List (MsgEntry ι α)) :
    Except (Fault ι α) (Server ι α × Except EntryError (List MsgEntryResponse)) :=
  if s.state ≠ .leader then .ok (s, .error .notLeader)
  else
    let etys := es.map (entryOf s.currentTerm)
    match detectVotingCfgChange etys (s.currentIdx + 1) s.votingCfgChangeLogIdx with
    | none => .ok (s, .error .oneVotingChangeOnly)
    | some detected =>
      let s : Server ι α := { s with votingCfgChangeLogIdx := detected }
      let offered := o.logOfferBatch s etys s.prevEntry s.log.back
      let s : Server ι α := { offered.1 with log := logAppendBatch s.log offered.2 }
      if s.nodes = [] then .error ⟨.undefined, s⟩
      else
        let s := s.spread env
        let r : MsgEntryResponse :=
          { id := offered.2.head?.elim 0 (·.id), idx := s.currentIdx, term := s.currentTerm }
        .ok (s, .ok (List.replicate es.length r))

/-- `raft_recv_entry` on one entry after another, each call in its own environment. -/
def recvEntries (o : Offers ι α) :
    Server ι α → List (Env α × MsgEntry ι α) →
      Except (Fault ι α) (Server ι α × List (Except EntryError MsgEntryResponse))
  | s, [] => .ok (s, [])
  | s, (env, e) :: ms =>
    match s.raftRecvEntryWith o env e with
    | .error f => .error f
    | .ok (s, r) =>
      match recvEntries o s ms with
      | .error f => .error f
      | .ok (s, rs) => .ok (s, r :: rs)

end Server

/-! ## Cyclone's callbacks -/

section Cyclone

variable [DecidableEq ι]

/-- `__raft_logentry_offer` and `__raft_logentry_offer_batch`. -/
def cycloneOffers : Offers ι α where
  logOffer s e prev idx :=
    let offered := Server.raftLogentryOfferBatch s.cycloneIsLeader s [e] prev idx
    (offered.1, offered.2.headD e)
  logOfferBatch s es prev idx := Server.raftLogentryOfferBatch s.cycloneIsLeader s es prev idx

theorem raftRecvEntryWith_cyclone (env : Env α) (s : Server ι α) (e : MsgEntry ι α) :
    s.raftRecvEntryWith cycloneOffers env e = s.raftRecvEntry env e := rfl

/-- The offer numbers the first entry of a batch by its slot. -/
theorem raftRecvEntryBatchWith_cyclone (env : Env α) (s : Server ι α) (es : List (MsgEntry ι α)) :
    s.raftRecvEntryBatchWith cycloneOffers env es = s.raftRecvEntryBatch env es := by
  cases es with
  | nil => rfl
  | cons e es => rfl

end Cyclone

/-! ## What a submission leaves -/

/-- The same entries under the same cursors; the capacity of the ring is not compared. -/
structure SameLog (l l' : Log ι α) : Prop where
  entries : l.entries = l'.entries
  front : l.front = l'.front
  back : l.back = l'.back
  count : l.count = l'.count

/-- `t` is the server `s` once the entries `es` have been submitted to it. -/
structure Took (s t : Server ι α) (es : List (Entry ι α)) : Prop where
  entries : t.log.entries = s.log.entries ++ es
  front : t.log.front = s.log.front
  back : t.log.back = s.log.back + es.length
  count : t.log.count = s.log.count + es.length
  commit : t.commitIdx = if s.nodes.length = 1 then t.log.back else s.commitIdx
  voting : t.votingCfgChangeLogIdx = s.votingCfgChangeLogIdx
  state : t.state = s.state
  term : t.currentTerm = s.currentTerm
  peers : t.nodes.length = s.nodes.length

namespace Took

variable {s t u : Server ι α} {es es' : List (Entry ι α)}

theorem trans (first : Took s t es) (second : Took t u es') : Took s u (es ++ es') := by
  constructor
  · rw [second.entries, first.entries, List.append_assoc]
  · rw [second.front, first.front]
  · rw [second.back, first.back, List.length_append]
    omega
  · rw [second.count, first.count, List.length_append]
    omega
  · rw [second.commit, first.commit, first.peers]
    split <;> rfl
  · rw [second.voting, first.voting]
  · rw [second.state, first.state]
  · rw [second.term, first.term]
  · rw [second.peers, first.peers]

theorem currentIdx (took : Took s t es) : t.currentIdx = s.log.back + es.length := took.back

/-- What two submissions of the same entries agree in. -/
theorem agree (first : Took s t es) (second : Took s u es) :
    SameLog t.log u.log ∧ t.commitIdx = u.commitIdx ∧
      t.votingCfgChangeLogIdx = u.votingCfgChangeLogIdx := by
  have back : t.log.back = u.log.back := by rw [first.back, second.back]
  refine ⟨⟨?_, ?_, back, ?_⟩, ?_, ?_⟩
  · rw [first.entries, second.entries]
  · rw [first.front, second.front]
  · rw [first.count, second.count]
  · rw [first.commit, second.commit, back]
  · rw [first.voting, second.voting]

end Took

section Submission

set_option linter.unusedSectionVars false

variable [DecidableEq ι] {o : Offers ι α} {s : Server ι α}

/-- The sends and the commit of a lone node, over a log that has taken the entries. -/
theorem took_spread (env : Env α) (calls : List (Callback ι α)) {log : Log ι α}
    {es : List (Entry ι α)} (entries : log.entries = s.log.entries ++ es)
    (front : log.front = s.log.front) (back : log.back = s.log.back + es.length)
    (count : log.count = s.log.count + es.length) :
    Took s ({ s with calls := calls, log := log }.spread env) es := by
  have sent := sent_sendRound env { s with calls := calls, log := log }
  have peers : ({ s with calls := calls, log := log }.sendRound env).nodes.length =
      s.nodes.length := by
    simpa using congrArg List.length sent.bare
  unfold Server.spread
  generalize { s with calls := calls, log := log }.sendRound env = t at sent peers
  simp only [peers]
  rw [sent.core]
  split
  · rename_i lone
    exact ⟨entries, front, back, count, by rw [if_pos lone]; rfl, rfl, rfl, rfl, peers⟩
  · rename_i several
    exact ⟨entries, front, back, count, by rw [if_neg several], rfl, rfl, rfl, peers⟩

theorem isVotingCfgChange_normal {e : Entry ι α} (normal : e.type = .normal) :
    e.isVotingCfgChange = false := by
  simp [Entry.isVotingCfgChange, normal]

/-- A leader takes a normal entry, and names it by its own id and its own index. -/
theorem raftRecvEntryWith_normal (passive : o.Passive) (leader : s.state = .leader)
    (peers : s.nodes ≠ []) (env : Env α) {e : MsgEntry ι α} (normal : e.type = .normal) :
    ∃ t, s.raftRecvEntryWith o env e = .ok (t, .ok ⟨e.id, s.log.back + 1, s.currentTerm⟩) ∧
      Took s t [Server.entryOf s.currentTerm e] := by
  have plain : (Server.entryOf s.currentTerm e).isVotingCfgChange = false :=
    isVotingCfgChange_normal normal
  obtain ⟨calls, offered⟩ := passive.one s (Server.entryOf s.currentTerm e) s.prevEntry s.log.back
    normal
  have appended : ∀ (l : Log ι α) (c : Entry ι α), (logAppendEntry l c).entries = l.entries ++ [c] ∧
      (logAppendEntry l c).front = l.front ∧ (logAppendEntry l c).back = l.back + 1 ∧
      (logAppendEntry l c).count = l.count + 1 := by
    intro l c
    unfold logAppendEntry ensureCapacity
    split <;> exact ⟨rfl, rfl, rfl, rfl⟩
  obtain ⟨entries, front, back, count⟩ := appended s.log (Server.entryOf s.currentTerm e)
  have took := took_spread (s := s) env calls entries front back count
  refine ⟨_, ?_, took⟩
  have place := took.currentIdx
  unfold Server.raftRecvEntryWith
  rw [if_neg (by simp [plain]), if_neg (not_not.mpr leader)]
  simp only [plain, offered, if_neg peers, Bool.false_eq_true, if_false]
  rw [place, took.term]
  rfl

variable {es : List (MsgEntry ι α)}

theorem entryOf_normal {term : Int} (normal : ∀ e ∈ es, e.type = .normal) :
    ∀ e ∈ es.map (Server.entryOf term), e.type = .normal := by
  intro e member
  obtain ⟨m, at_, rfl⟩ := List.mem_map.mp member
  exact normal m at_

theorem detectVotingCfgChange_normal {es : List (Entry ι α)}
    (normal : ∀ e ∈ es, e.type = .normal) (idx detected : Int) :
    Server.detectVotingCfgChange es idx detected = some detected := by
  induction es generalizing idx with
  | nil => rfl
  | cons e es ih =>
    rw [Server.detectVotingCfgChange, isVotingCfgChange_normal (normal e List.mem_cons_self)]
    exact ih (fun e' later => normal e' (List.mem_cons_of_mem e later)) (idx + 1)

/-- A leader takes a batch of normal entries, and names the first id and the last index in every
response. -/
theorem raftRecvEntryBatchWith_normal (passive : o.Passive) (leader : s.state = .leader)
    (peers : s.nodes ≠ []) (env : Env α) (normal : ∀ e ∈ es, e.type = .normal) :
    ∃ t, s.raftRecvEntryBatchWith o env es =
        .ok (t, .ok (List.replicate es.length
          ⟨es.head?.elim 0 (·.id), s.log.back + es.length, s.currentTerm⟩)) ∧
      Took s t (es.map (Server.entryOf s.currentTerm)) := by
  have plain : ∀ e ∈ es.map (Server.entryOf s.currentTerm), e.type = .normal :=
    entryOf_normal normal
  obtain ⟨calls, offered⟩ := passive.batch s (es.map (Server.entryOf s.currentTerm)) s.prevEntry
    s.log.back plain
  have took : Took s ({ s with
      calls := calls
      log := logAppendBatch s.log (es.map (Server.entryOf s.currentTerm)) }.spread env)
      (es.map (Server.entryOf s.currentTerm)) :=
    took_spread env calls rfl rfl rfl rfl
  have first : ((es.map (Server.entryOf s.currentTerm)).head?.elim 0 fun e => e.id) =
      es.head?.elim 0 fun e => e.id := by
    cases es <;> rfl
  refine ⟨_, ?_, took⟩
  have place := took.currentIdx
  rw [List.length_map] at place
  unfold Server.raftRecvEntryBatchWith
  rw [if_neg (not_not.mpr leader)]
  simp only [offered, detectVotingCfgChange_normal plain, if_neg peers, first]
  rw [place, took.term]

/-- One after another: the first response names the first entry's own place. -/
theorem recvEntries_normal (passive : o.Passive) (leader : s.state = .leader) (peers : s.nodes ≠ [])
    (m : Env α × MsgEntry ι α) (ms : List (Env α × MsgEntry ι α))
    (normal : ∀ x ∈ m :: ms, x.2.type = .normal) :
    ∃ t rs, Server.recvEntries o s (m :: ms) =
        .ok (t, .ok ⟨m.2.id, s.log.back + 1, s.currentTerm⟩ :: rs) ∧
      rs.length = ms.length ∧
      Took s t ((m :: ms).map fun x => Server.entryOf s.currentTerm x.2) := by
  induction ms generalizing s m with
  | nil =>
    obtain ⟨t, ran, took⟩ :=
      raftRecvEntryWith_normal passive leader peers m.1 (normal m List.mem_cons_self)
    refine ⟨t, [], ?_, rfl, took⟩
    simp only [Server.recvEntries, ran]
  | cons m' ms ih =>
    obtain ⟨t, ran, took⟩ :=
      raftRecvEntryWith_normal passive leader peers m.1 (normal m List.mem_cons_self)
    have manned : t.nodes ≠ [] := by
      intro none_
      have same := took.peers
      rw [none_, eq_comm, List.length_nil, List.length_eq_zero_iff] at same
      exact peers same
    obtain ⟨u, rs, rest, length, more⟩ := ih (took.state.trans leader) manned m'
      fun x later => normal x (List.mem_cons_of_mem m later)
    refine ⟨u, .ok ⟨m'.2.id, t.log.back + 1, t.currentTerm⟩ :: rs, ?_, congrArg Nat.succ length,
      ?_⟩
    · rw [Server.recvEntries, ran]
      simp only [rest]
    · rw [took.term] at more
      exact took.trans more

/-- With no node at all `rand() % num_nodes` divides by zero. -/
theorem recvEntries_unmanned (passive : o.Passive) (leader : s.state = .leader)
    (unmanned : s.nodes = []) (m : Env α × MsgEntry ι α) (ms : List (Env α × MsgEntry ι α))
    (normal : m.2.type = .normal) : ∃ f, Server.recvEntries o s (m :: ms) = .error f := by
  have plain : (Server.entryOf s.currentTerm m.2).isVotingCfgChange = false :=
    isVotingCfgChange_normal normal
  obtain ⟨calls, offered⟩ := passive.one s (Server.entryOf s.currentTerm m.2) s.prevEntry s.log.back
    normal
  rw [Server.recvEntries, Server.raftRecvEntryWith, if_neg (by simp [plain]),
    if_neg (not_not.mpr leader)]
  simp only [offered, if_pos unmanned]
  exact ⟨_, rfl⟩

theorem raftRecvEntryBatchWith_unmanned (passive : o.Passive) (leader : s.state = .leader)
    (unmanned : s.nodes = []) (env : Env α) (normal : ∀ e ∈ es, e.type = .normal) :
    ∃ f, s.raftRecvEntryBatchWith o env es = .error f := by
  have plain : ∀ e ∈ es.map (Server.entryOf s.currentTerm), e.type = .normal :=
    entryOf_normal normal
  obtain ⟨calls, offered⟩ := passive.batch s (es.map (Server.entryOf s.currentTerm)) s.prevEntry
    s.log.back plain
  rw [Server.raftRecvEntryBatchWith, if_neg (not_not.mpr leader)]
  simp only [offered, detectVotingCfgChange_normal plain, if_pos unmanned]
  exact ⟨_, rfl⟩

/-- A batch that is refused is refused before anything is written. -/
theorem raftRecvEntryBatchWith_refused {env : Env α} {t : Server ι α} {err : EntryError}
    (ran : s.raftRecvEntryBatchWith o env es = .ok (t, .error err)) : t = s := by
  unfold Server.raftRecvEntryBatchWith at ran
  split at ran
  · cases ran
    rfl
  · dsimp only at ran
    split at ran
    · cases ran
      rfl
    · split at ran <;> cases ran

/-- **Submission in a batch.**  Over callbacks that leave the entries alone, a leader that takes
normal entries in one batch has the log, the commit index and the voting change it would have after
taking them one by one; the responses are the same exactly for a batch of one.  A batch of any
entries that is refused changes nothing. -/
theorem batch_submission (o : Offers ι α) (passive : o.Passive) :
    (∀ (s : Server ι α) (env : Env α) (ms : List (Env α × MsgEntry ι α)),
      s.state = .leader → ms ≠ [] → (∀ m ∈ ms, m.2.type = .normal) →
      (s.nodes = [] →
        (∃ f, s.raftRecvEntryBatchWith o env (ms.map Prod.snd) = .error f) ∧
        ∃ f, Server.recvEntries o s ms = .error f) ∧
      (s.nodes ≠ [] → ∃ t rs u rs',
        s.raftRecvEntryBatchWith o env (ms.map Prod.snd) = .ok (t, .ok rs) ∧
        Server.recvEntries o s ms = .ok (u, rs') ∧
        SameLog t.log u.log ∧ t.commitIdx = u.commitIdx ∧
        t.votingCfgChangeLogIdx = u.votingCfgChangeLogIdx ∧
        (rs.map Except.ok = rs' ↔ ms.length = 1))) ∧
    ∀ (s t : Server ι α) (env : Env α) (es : List (MsgEntry ι α)) (err : EntryError),
      s.raftRecvEntryBatchWith o env es = .ok (t, .error err) →
      t.log = s.log ∧ t.commitIdx = s.commitIdx ∧
        t.votingCfgChangeLogIdx = s.votingCfgChangeLogIdx := by
  constructor
  · intro s env ms leader some_ normal
    obtain ⟨m, ms, rfl⟩ := List.exists_cons_of_ne_nil some_
    have each : ∀ e ∈ (m :: ms).map Prod.snd, e.type = .normal := by
      intro e member
      obtain ⟨x, at_, rfl⟩ := List.mem_map.mp member
      exact normal x at_
    constructor
    · intro unmanned
      exact ⟨raftRecvEntryBatchWith_unmanned passive leader unmanned env each,
        recvEntries_unmanned passive leader unmanned m ms (normal m List.mem_cons_self)⟩
    · intro peers
      obtain ⟨t, batch, took⟩ := raftRecvEntryBatchWith_normal passive leader peers env each
      obtain ⟨u, rs, sequence, length, took'⟩ :=
        recvEntries_normal passive leader peers m ms normal
      rw [List.map_map] at took
      obtain ⟨log, commit, voting⟩ := took.agree took'
      refine ⟨t, _, u, _, batch, sequence, log, commit, voting, ?_⟩
      constructor
      · intro same
        -- the first response already differs in its index
        simp only [List.length_map, List.length_cons, List.replicate_succ, List.map_cons,
          List.cons.injEq, Except.ok.injEq, MsgEntryResponse.mk.injEq] at same
        rw [List.length_cons]
        omega
      · intro one
        obtain rfl : ms = [] := List.length_eq_zero_iff.mp (Nat.succ.inj one)
        obtain rfl : rs = [] := List.length_eq_zero_iff.mp length
        rfl
  · intro s t env es err ran
    rw [raftRecvEntryBatchWith_refused ran]
    exact ⟨rfl, rfl, rfl⟩

end Submission

/-- Callbacks that only note each entry they are offered. -/
def notingOffers : Offers ι α where
  logOffer s e _ idx := (s.call (.logOffer e idx), e)
  logOfferBatch s es _ idx :=
    ({ s with calls := s.calls ++ es.mapIdx fun i e => .logOffer e (idx + i) }, es)

theorem notingOffers_passive : (notingOffers : Offers ι α).Passive where
  one _ _ _ _ _ := ⟨_, rfl⟩
  batch _ _ _ _ _ := ⟨_, rfl⟩

/-- A leader of two, with nothing in its log. -/
def pairLeader : Server (Fin 2) Nat :=
  { Server.boot 0 2 ⟨1000, 200, 1000, false, true⟩ [0, 1] with state := .leader, currentTerm := 1 }

def stillLink : Env Nat := ⟨0, fun _ => 0, fun _ => none, 0⟩

/-- A batch of one. -/
theorem batch_submission_single : ∃ t rs u rs',
    pairLeader.raftRecvEntryBatchWith notingOffers stillLink [⟨5, .normal, 7⟩] = .ok (t, .ok rs) ∧
    Server.recvEntries notingOffers pairLeader [(stillLink, ⟨5, .normal, 7⟩)] = .ok (u, rs') ∧
    SameLog t.log u.log ∧ rs.map Except.ok = rs' := by
  obtain ⟨t, rs, u, rs', batch, sequence, log, -, -, same⟩ :=
    ((batch_submission notingOffers notingOffers_passive).1 pairLeader stillLink
      [(stillLink, ⟨5, .normal, 7⟩)] rfl (by decide) (by simp)).2 (by decide)
  exact ⟨t, rs, u, rs', batch, sequence, log, same.mpr rfl⟩

/-- Two entries: both responses of the batch carry the id of the first and the index of the
second. -/
theorem batch_responses_differ :
    (pairLeader.raftRecvEntryBatchWith notingOffers stillLink
      [⟨5, .normal, 7⟩, ⟨6, .normal, 8⟩]).toOption.map Prod.snd =
        some (.ok [⟨5, 2, 1⟩, ⟨5, 2, 1⟩]) ∧
    (Server.recvEntries notingOffers pairLeader
      [(stillLink, ⟨5, .normal, 7⟩), (stillLink, ⟨6, .normal, 8⟩)]).toOption.map Prod.snd =
        some [.ok ⟨5, 1, 1⟩, .ok ⟨6, 2, 1⟩] := by
  exact ⟨rfl, rfl⟩

end Cyclone.Raft
