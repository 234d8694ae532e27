/-
# Cluster.Resending — stored headers, and what is sent again

An entry is sent under the appendentries header kept in its packet since it was first appended,
by whichever server leads later.  The header is right as long as entries land where
their header says: a leader writes it from the entry before, and a follower checks the previous
entry before it keeps the packet as it came.  The one way around that check is an entry
whose index the follower has already released: it is not found in the log, and goes to its end.

Servers here take any calls, configuration changes included, from any initial membership.

A failure answer rolls a leader back to the entry its peer misses, unless the staleness filter
drops the answer first.
-/
import Cyclone.Cluster.Acceptance
import Cyclone.Raft.Membership

namespace Cyclone

open Cyclone.Raft Cyclone.Theory Relation

set_option autoImplicit false

variable {n : Nat} {α : Type}

/-! ## A cluster under any calls -/

/-- A call of the library on a server, or a delivery. -/
inductive OpenLabel (n : Nat) (α : Type) where
  | call (i : Fin n) (env : Env α) (input : Input (Fin n) α)
  | deliver (k : Nat) (env : Env α)

namespace OpenLabel

/-- Labels of runs in which every packet is taken at once. -/
def tick (i : Fin n) (msec : Int) : OpenLabel n Nat := .call i (wideEnv 0) (.periodic msec)

def take (k : Nat) : OpenLabel n Nat := .deliver k (wideEnv 0)

def ask (i : Fin n) (data : Nat) : OpenLabel n Nat :=
  .call i (wideEnv 0) (.recvEntry ⟨0, .normal, data⟩)

end OpenLabel

namespace Cluster

/-- The call of a label; messages come from the network only. -/
def openCallOf (c : Cluster n α) :
    OpenLabel n α → Option (Fin n × Env α × Input (Fin n) α × Fin n)
  | .call _ _ (.recv _ _) => none
  | .call i env input => some (i, env, input, i)
  | .deliver k env => (c.net[k]?).map fun p => (p.dst, env, .recv p.src p.msg, p.src)

def openStep (c : Cluster n α) (l : OpenLabel n α) : Option (Cluster n α) :=
  (c.openCallOf l).bind fun p =>
    if c.up p.1 then some (c.call p.1 p.2.1 p.2.2.1 p.2.2.2) else none

/-- Every server with a membership of its own. -/
def enrolled (replicas : Nat) (cfg : Fin n → Config) (members : Fin n → List (Fin n × Bool)) :
    Cluster n α where
  srv := fun i => Server.enrol i replicas (cfg i) (members i)
  up := fun _ => true
  net := []

end Cluster

variable {c : Cluster n α} {l : OpenLabel n α}

theorem openStep_call {c' : Cluster n α} (taken : c.openStep l = some c') :
    ∃ i env input reply, c.openCallOf l = some (i, env, input, reply) ∧ c.up i = true ∧
      c' = c.call i env input reply := by
  obtain ⟨⟨i, env, input, reply⟩, called, rest⟩ := Option.bind_eq_some_iff.mp taken
  simp only at rest
  split at rest
  · rename_i running
    cases rest
    exact ⟨i, env, input, reply, called, running, rfl⟩
  · cases rest

variable {i : Fin n} {env : Env α}

/-- A received message was on the network. -/
theorem openCallOf_recv {source reply : Fin n} {msg : Msg (Fin n) α}
    (called : c.openCallOf l = some (i, env, .recv source msg, reply)) :
    ⟨source, i, msg⟩ ∈ c.net := by
  cases l with
  | call j env' input =>
    cases input with
    | recv => cases called
    | _ => simp [Cluster.openCallOf] at called
  | deliver k env' =>
    obtain ⟨p, at_, same⟩ := Option.map_eq_some_iff.mp called
    simp only [Prod.mk.injEq, Input.recv.injEq] at same
    obtain ⟨rfl, -, ⟨rfl, rfl⟩, -⟩ := same
    exact List.mem_of_getElem? at_

/-! ## Headers -/

section Headers

variable {ι : Type}

/-- Every entry's packet carries the index and the term of the entry before it. -/
def Headed (l : List (Entry ι α)) : Prop :=
  ∀ (k : Nat) (e : Entry ι α), l[k]? = some e → e.head = ⟨k, termBefore none l k⟩

theorem headed_nil : Headed ([] : List (Entry ι α)) := by
  intro k e at_
  simp at at_

variable {l : List (Entry ι α)}

theorem Headed.starts {l' : List (Entry ι α)} (headed : Headed l) (pre : l' <+: l) : Headed l' := by
  intro k e at_
  have inside := (List.getElem?_eq_some_iff.mp at_).1
  rw [headed k e (by rw [getElem?_prefix_eq pre inside, at_]),
    termBefore_starts pre (le_of_lt inside)]

/-- Entries whose headers count on from the end of the log. -/
theorem Headed.append {es : List (Entry ι α)} {prev : Option (Entry ι α)} (headed : Headed l)
    (last : prev = if 0 < l.length then l[l.length - 1]? else none)
    (fresh : ∀ (k : Nat) (e : Entry ι α), es[k]? = some e →
      e.head = ⟨l.length + k, termBefore prev es k⟩) : Headed (l ++ es) := by
  intro k e at_
  by_cases old : k < l.length
  · rw [List.getElem?_append_left old] at at_
    rw [termBefore_starts (List.prefix_append l _) (le_of_lt old)]
    exact headed k e at_
  · rw [List.getElem?_append_right (by omega)] at at_
    have at_end : l.length + (k - l.length) = k := by omega
    rw [fresh _ e at_, ← termBefore_append last, at_end]
    congr 1
    omega

theorem Headed.snoc {e : Entry ι α} (headed : Headed l)
    (head : e.head = ⟨l.length, termBefore none l l.length⟩) : Headed (l ++ [e]) := by
  refine headed.append rfl fun k x at_ => ?_
  cases k with
  | zero =>
    have before : termBefore none (l ++ []) (l.length + 0) = _ := termBefore_append rfl 0
    rw [List.append_nil, Nat.add_zero] at before
    cases at_
    rw [head, before]
    simp [termBefore]
  | succ k => simp at at_

/-- A message as `__send_appendentries_opt` sends it: empty, or one entry under its own header. -/
inductive Framed (m : MsgAppendentries ι α) : Prop where
  | empty (none_ : m.entries = []) : Framed m
  | single (e : Entry ι α) (one : m.entries = [e]) (head : e.head = ⟨m.prevLogIdx, m.prevLogTerm⟩)
      (nonneg : 0 ≤ m.prevLogIdx) (first : m.prevLogIdx = 0 → m.prevLogTerm = 0) : Framed m

end Headers

section Server

variable {s s' : Server (Fin n) α}

theorem framed_of_sends (headed : Headed s.log.entries)
    {m : MsgAppendentries (Fin n) α} (sends : s.Sends m) : Framed m := by
  obtain ⟨nextIdx, -, packet⟩ := sends
  unfold sendAppendentriesOpt at packet
  split at packet
  · rename_i none_
    obtain rfl := List.mem_singleton.mp packet
    exact .empty none_
  · obtain ⟨e, member, rfl⟩ := List.mem_map.mp packet
    have inLog : e ∈ s.log.entries := mem_of_getFromIdx (List.mem_of_mem_take member)
    obtain ⟨k, at_⟩ := List.mem_iff_getElem?.mp inLog
    have head := headed k e at_
    refine .single e rfl rfl (by simp only [head]; omega) fun zero => ?_
    simp only [head] at zero ⊢
    obtain rfl : k = 0 := by omega
    rfl

/-- The appendentries among the new callbacks were cut from the log. -/
def Speaks (s s' : Server (Fin n) α) : Prop :=
  ∃ cs, s'.calls = s.calls ++ cs ∧ ∀ id m, .sendAppendentries id m ∈ cs → s.Sends m

theorem Speaks.silent (cs : List (Callback (Fin n) α)) (calls : s'.calls = s.calls ++ cs)
    (none_ : ∀ id m, .sendAppendentries id m ∉ cs) : Speaks s s' :=
  ⟨cs, calls, fun id m member => absurd member (none_ id m)⟩

theorem Speaks.same (calls : s'.calls = s.calls) : Speaks s s' :=
  .silent [] (by simpa using calls) (by simp)

theorem Raft.Sent.speaks {who : Fin n → Prop} (sent : Sent who s s') : Speaks s s' := by
  obtain ⟨cs, calls, each⟩ := sent.sends
  refine ⟨cs, calls, fun id m member => ?_⟩
  obtain ⟨id', m', same, -, sends⟩ := each _ member
  cases same
  exact sends

/-- What a send is cut from. -/
theorem sends_congr (log : s'.log = s.log) (term : s'.currentTerm = s.currentTerm)
    (commit : s'.commitIdx = s.commitIdx) (m : MsgAppendentries (Fin n) α) :
    s'.Sends m ↔ s.Sends m := by
  simp only [Server.Sends, Server.mkAppendentries, Server.entryFromIdx, log, term, commit]

theorem speaks_raftBecomeLeader (env : Env α) (s : Server (Fin n) α) :
    Speaks s (s.raftBecomeLeader env) := by
  have kept : (s.raftBecomeLeader env).log = s.log ∧
      (s.raftBecomeLeader env).currentTerm = s.currentTerm ∧
      (s.raftBecomeLeader env).commitIdx = s.commitIdx ∧ Speaks s (s.raftBecomeLeader env) := by
    unfold Server.raftBecomeLeader
    apply forNodes_keeps (I := fun t => t.log = s.log ∧ t.currentTerm = s.currentTerm ∧
      t.commitIdx = s.commitIdx ∧ Speaks s t)
    · rintro t nd ⟨log, term, commit, cs, calls, each⟩ -
      split
      · exact ⟨log, term, commit, cs, calls, each⟩
      · have sent := sent_raftSendAppendentries env (fun _ => True)
          (t.updNode nd.id fun nd => (nd.setNextIdx (t.currentIdx + 1)).setMatchIdx 0) nd.id trivial
        refine ⟨sent.log.trans log, sent.currentTerm.trans term, sent.commitIdx.trans commit, ?_⟩
        obtain ⟨cs', calls', each'⟩ := sent.speaks
        refine ⟨cs ++ cs', by rw [calls', ← List.append_assoc, ← calls]; rfl, fun id m member => ?_⟩
        rcases List.mem_append.mp member with old | new
        · exact each id m old
        · exact (sends_congr log term commit m).mp (each' id m new)
    · exact ⟨rfl, rfl, rfl, .same rfl⟩
  exact kept.2.2.2

variable {env : Env α} {input : Input (Fin n) α}

/-- What a light action sends was cut from the log. -/
theorem Raft.Light.speaks (act : Light env input s s') : Speaks s s' := by
  cases act with
  | sent sent => exact sent.speaks
  | hint | giveUp | flag | matched | sufficient | checkpoint => exact .same rfl
  | raise later =>
    rw [setCurrentTerm_of_lt later]
    exact .silent [_] rfl (by simp)
  | stand =>
    obtain ⟨cs, after, each⟩ := raftBecomeCandidate_spec env s
    rw [after]
    refine .silent _ rfl fun id m member => ?_
    simp only [List.cons_append, List.nil_append, List.mem_cons, reduceCtorEq, false_or] at member
    obtain ⟨id', -, same⟩ := each _ member
    cases same
  | vote => exact .silent [_] rfl (by simp)
  | win | alone => exact speaks_raftBecomeLeader env s
  | advance advanced => exact .same (by rw [(advanceCommit_commits advanced).core])
  | follow _ followed => exact .same (by rw [(followCommit_commits followed).core])
  | apply next => exact .silent [_] (by rw [next.core]) (by simp)
  | compact =>
    unfold Server.compactLog
    split
    · exact .same rfl
    · exact .silent _ rfl (by simp)

/-- What a server keeps about headers. -/
structure Headers (s : Server (Fin n) α) : Prop where
  chain : IndexChain s
  headed : Headed s.log.entries
  framed : ∀ id m, .sendAppendentries id m ∈ s.calls → Framed m

theorem Headers.light (headers : Headers s) (act : Light env input s s') : Headers s' := by
  have entries : s'.log.entries = s.log.entries := by
    rcases act.kinds with calm | ⟨ety, next⟩ | ⟨-, rfl⟩
    · exact calm.entries
    · rw [next.core]
    · rw [compactLog_core]
  obtain ⟨cs, calls, each⟩ := act.speaks
  refine ⟨(act.advances headers.chain).1, entries ▸ headers.headed, fun id m member => ?_⟩
  rw [calls] at member
  rcases List.mem_append.mp member with old | new
  · exact headers.framed id m old
  · exact framed_of_sends headers.headed (each id m new)

/-- Callbacks that send no appendentries keep the promise about packets. -/
theorem Headers.silent {cs made : List (Callback (Fin n) α)} (headers : Headers s)
    (calls : made = s.calls ++ cs) (none_ : ∀ id m, .sendAppendentries id m ∉ cs) (id : Fin n)
    (m : MsgAppendentries (Fin n) α) (member : .sendAppendentries id m ∈ made) : Framed m := by
  rw [calls] at member
  rcases List.mem_append.mp member with old | new
  · exact headers.framed id m old
  · exact absurd new (none_ id m)

theorem offers_silent (idx : Int) (es : List (Entry (Fin n) α)) (id : Fin n)
    (m : MsgAppendentries (Fin n) α) : .sendAppendentries id m ∉ offers idx es := by
  intro member
  obtain ⟨e, k, same⟩ := mem_offers member
  cases same

/-- A leader's append keeps the log headed. -/
theorem headed_stampFrom (chain : IndexChain s) (headed : Headed s.log.entries)
    (es : List (Entry (Fin n) α)) :
    Headed (s.log.entries ++ stampFrom true s.prevEntry s.log.back es) := by
  refine headed.append (prevEntry_eq chain) fun k e at_ => ?_
  rw [(stampFrom_head at_).2, ← chain.wf.length_eq]

theorem Headers.submitted {es : List (MsgEntry (Fin n) α)} {early : Int}
    {s₁ s₂ : Server (Fin n) α} (headers : Headers s) (submitted : Submitted s s' es early s₁ s₂) :
    Headers s' := by
  have isLeader : s.cycloneIsLeader = true := by simp [Server.cycloneIsLeader, submitted.leader]
  have appended := submitted.appended
  rw [isLeader] at appended
  have headed : Headed s₁.log.entries := by
    rw [appended.grown.entries_eq]
    exact headed_stampFrom headers.chain headers.headed _
  have framed : ∀ id m, .sendAppendentries id m ∈ s₁.calls → Framed m :=
    headers.silent (by rw [appended.core]) (offers_silent _ _)
  obtain ⟨cs, calls, each⟩ := submitted.sent.speaks
  refine ⟨(submitted.advances headers.chain).1, ?_, fun id m member => ?_⟩
  · rw [submitted.ends]
    simpa only [submitted.sent.log] using headed
  · rw [submitted.ends] at member
    simp only [calls] at member
    rcases List.mem_append.mp member with old | new
    · exact framed id m old
    · exact framed_of_sends headed (each id m new)

theorem entries_cutAt_starts (s : Server (Fin n) α) (cut : Option Int) :
    (s.cutAt cut).log.entries <+: s.log.entries := by
  cases cut with
  | none => exact List.prefix_rfl
  | some idx => exact logPopLoop_starts _ s.log

theorem calls_cutAt (s : Server (Fin n) α) (cut : Option Int) :
    ∃ cs, (s.cutAt cut).calls = s.calls ++ cs ∧ ∀ id m, .sendAppendentries id m ∉ cs := by
  cases cut with
  | none => exact ⟨[], by simp [Server.cutAt], by simp⟩
  | some idx => exact ⟨_, rfl, by simp⟩

variable {ae : MsgAppendentries (Fin n) α} {cut : Option Int}

/-- A lone entry that is taken lands where its header says: right after the entry its message
named, whose term was checked. -/
theorem landing {e : Entry (Fin n) α} (chain : IndexChain s)
    (gap : ae.entries = [] ∨ s.log.front ≤ ae.prevLogIdx) (one : ae.entries = [e])
    (nonneg : 0 ≤ ae.prevLogIdx) (first : ae.prevLogIdx = 0 → ae.prevLogTerm = 0)
    (agrees : s.HoldsPrev ae)
    (scan : Scan s ae 0 cut) :
    (s.cutAt cut).log.entries.length = ae.prevLogIdx ∧
      termBefore none (s.cutAt cut).log.entries (s.cutAt cut).log.entries.length =
        ae.prevLogTerm := by
  have some_ : ae.entries ≠ [] := by simp [one]
  have retained := gap.resolve_left some_
  have base := chain.base_le
  have applied := chain.applied_le
  have commit := chain.commit_le
  have length := chain.wf.length_eq
  -- the log ends, or is cut, right after the previous entry
  have ends : (s.cutAt cut).log.entries.length = ae.prevLogIdx ∧ s.logBase ≤ ae.prevLogIdx := by
    cases cut with
    | none =>
      have missing := (scan.keeps rfl).2 (by simp [one])
      simp only [Int.natCast_zero, Int.add_zero] at missing
      have beyond := chain.wf.getAtIdx_none missing
      have short : ae.prevLogIdx ≤ s.log.back := by
        by_contra past
        obtain ⟨x, found, -⟩ := agrees (by omega) (by omega)
        have := (logGetAtIdx_bounds found).2
        omega
      refine ⟨?_, by omega⟩
      change (s.log.entries.length : Int) = _
      omega
    | some idx =>
      obtain ⟨above, where_⟩ := scan.cuts idx rfl
      rcases where_ with ⟨none_, -⟩ | ⟨at_, conflict⟩
      · exact absurd none_ some_
      · obtain ⟨-, x, -, found, -⟩ := conflict
        obtain ⟨low, high⟩ := logGetAtIdx_bounds found
        simp only [Int.natCast_zero, Int.add_zero] at at_ low high
        have front := chain.wf.front_nonneg
        refine ⟨?_, by omega⟩
        change ((logDelete s.log idx).1.entries.length : Int) = _
        rw [logDelete_log chain.wf (by omega) (by omega), List.length_take_of_le (by omega)]
        omega
  refine ⟨ends.1, ?_⟩
  have pre := entries_cutAt_starts s cut
  rw [← termBefore_starts pre (le_refl _)]
  by_cases zero : ae.prevLogIdx = 0
  · rw [first zero, show (s.cutAt cut).log.entries.length = 0 by omega]
    rfl
  · obtain ⟨x, found, term⟩ := agrees (by omega) ends.2
    have at_ := chain.wf.getAtIdx_some found
    rw [← term, ← termBefore_succ at_]
    congr 1
    omega

theorem Headers.taken {i : Nat} (headers : Headers s) (framed : Framed ae)
    (gap : ae.entries = [] ∨ s.log.front ≤ ae.prevLogIdx)
    (agrees : s.HoldsPrev ae)
    (scan : Scan s ae i cut) : Headers (s.taken ae i cut) := by
  obtain ⟨s₁, appended, accepted⟩ := acceptEntries_spec (s.cutAt cut) scan.short
  have kept : Headed (s.cutAt cut).log.entries := headers.headed.starts (entries_cutAt_starts s cut)
  have chain : IndexChain (s.cutAt cut) := (advances_cutAt scan headers.chain).1
  refine ⟨(advances_taken scan headers.chain).1, ?_, fun id m member => ?_⟩
  · rw [Server.taken, accepted]
    change Headed s₁.log.entries
    rw [appended.grown.entries_eq]
    cases framed with
    | empty none_ =>
      simpa [none_, stampFrom] using kept
    | single e one head nonneg first =>
      have short := scan.short
      rw [one, List.length_singleton] at short
      rcases Nat.le_one_iff_eq_zero_or_eq_one.mp short with rfl | rfl
      · obtain ⟨length, before⟩ := landing headers.chain gap one nonneg first agrees scan
        rw [one, List.drop_zero]
        cases leads : (s.cutAt cut).cycloneIsLeader with
        | true => exact headed_stampFrom chain kept [e]
        | false => exact kept.snoc (by rw [length, before]; exact head)
      · rw [one]
        simpa [stampFrom] using kept
  · obtain ⟨cs, cutCalls, silent⟩ := calls_cutAt s cut
    rw [Server.taken, accepted, appended.core] at member
    simp only [cutCalls, List.append_assoc] at member
    refine headers.silent rfl (fun id m new => ?_) id m member
    rcases List.mem_append.mp new with popped | rest
    · exact silent id m popped
    · rcases List.mem_append.mp rest with offered | polled
      · exact offers_silent _ _ id m offered
      · obtain ⟨x, -, same⟩ := List.mem_map.mp polled
        cases same

/-- What a delivered appendentries must be for the headers to stay right. -/
def LandsOn (s : Server (Fin n) α) (input : Input (Fin n) α) : Prop :=
  ∀ source ae, input = .recv source (.appendentries ae) → NoGap s ae ∧ Framed ae

theorem Headers.write {t : Server (Fin n) α} (headers : Headers s) (opens : Opens input t s)
    (lands : LandsOn t input) (act : Writes env input s s') : Headers s' := by
  cases act with
  | submit _ submitted => exact headers.submitted submitted
  | cut same pos found differ above =>
    have inside := (logGetAtIdx_bounds found).2
    obtain ⟨cs, calls, silent⟩ := calls_cutAt s (some _)
    exact ⟨(advances_truncate above inside headers.chain).1,
      headers.headed.starts (entries_cutAt_starts s (some _)), headers.silent calls silent⟩
  | take same follows agrees scan =>
    obtain ⟨gap, framed⟩ := lands _ _ rfl
    have retained := gap (opens.term.trans same.le)
    rw [← opens.quiet.log] at retained
    exact headers.taken framed retained agrees scan

theorem Headers.course (headers : Headers s) (lands : LandsOn s input)
    (course : Course env input s s') : Headers s' :=
  course.keeps (I := Headers) (fun _ _ headers act => headers.light act)
    (fun _ _ headers opens act => headers.write opens lands act) headers

theorem Headers.handle {answer : Option (Msg (Fin n) α)} (headers : Headers s)
    (lands : LandsOn s input) (ran : s.handle env input = .ok (s', answer)) : Headers s' := by
  have does := handle_does env input s
  rw [ran] at does
  exact headers.course lands does.course

/-- What a call that ends the process had sent. -/
theorem Headers.fault {f : Fault (Fin n) α} (headers : Headers s) (lands : LandsOn s input)
    (ran : s.handle env input = .error f) (id : Fin n) (m : MsgAppendentries (Fin n) α)
    (member : .sendAppendentries id m ∈ f.server.calls) : Framed m := by
  have does := handle_does env input s
  rw [ran] at does
  cases does with
  | ends course out =>
    have kept := headers.course lands course
    cases out with
    | here => exact kept.framed id m member
    | removed => exact kept.silent rfl (by simp) id m member
    | emptied _ appended => exact kept.silent (by rw [appended.core]) (offers_silent _ _) id m member

end Server

/-! ## Runs -/

/-- Every delivered appendentries with an entry starts after the released part of the log, unless it
is of an earlier term. -/
def Retained (c : Cluster n α) : OpenLabel n α → Prop
  | .deliver k _ => ∀ p ∈ c.net[k]?, ∀ ae, p.msg = .appendentries ae → NoGap (c.srv p.dst) ae
  | .call .. => True

instance (c : Cluster n α) : (l : OpenLabel n α) → Decidable (Retained c l)
  | .deliver k _ =>
    have lands : ∀ p : Packet n α,
        Decidable (∀ ae, p.msg = .appendentries ae → NoGap (c.srv p.dst) ae) := fun p =>
      match same : p.msg with
      | .appendentries ae =>
        decidable_of_iff (NoGap (c.srv p.dst) ae) ⟨fun gap _ eq => by cases eq; exact gap,
          fun all => all ae rfl⟩
      | .requestvote _ | .requestvoteResponse _ | .appendentriesResponse _ => isTrue (by simp)
    inferInstanceAs (Decidable (∀ p ∈ c.net[k]?, _))
  | .call .. => isTrue trivial

/-- Every running server's log is headed, and every packet on the network is framed. -/
structure Sealed (c : Cluster n α) : Prop where
  servers : ∀ i, c.up i = true → Headers (c.srv i)
  net : ∀ p ∈ c.net, ∀ ae, p.msg = .appendentries ae → Framed ae

variable {ae : MsgAppendentries (Fin n) α}

theorem mem_packetsOf {cs : List (Callback (Fin n) α)} {p : Packet n α}
    (member : p ∈ packetsOf i cs) (carries : p.msg = .appendentries ae) :
    ∃ j, .sendAppendentries j ae ∈ cs := by
  obtain ⟨c, called, sent⟩ := List.mem_filterMap.mp member
  cases c with
  | sendAppendentries j m =>
    cases sent
    cases carries
    exact ⟨j, called⟩
  | sendRequestvote j rv =>
    cases sent
    cases carries
  | _ => cases sent

/-- No call answers with an appendentries. -/
theorem handle_answer {s s' : Server (Fin n) α} {input : Input (Fin n) α} :
    s.handle env input ≠ .ok (s', some (.appendentries ae)) := by
  intro ran
  cases input with
  | periodic => obtain ⟨_, -, same⟩ := ok_of_map ran; cases same
  | recvEntry => obtain ⟨_, -, same⟩ := ok_of_map ran; cases same
  | recvEntryBatch => obtain ⟨_, -, same⟩ := ok_of_map ran; cases same
  | checkpoint => cases ran
  | recv source msg =>
    cases msg with
    | requestvote => obtain ⟨_, -, same⟩ := ok_of_map ran; cases same
    | requestvoteResponse => cases ran
    | appendentries => obtain ⟨_, -, same⟩ := ok_of_map ran; cases same
    | appendentriesResponse => obtain ⟨_, -, same⟩ := ok_of_map ran; cases same

theorem Sealed.step {c' : Cluster n α} (sealed : Sealed c) (retained : Retained c l)
    (taken : c.openStep l = some c') : Sealed c' := by
  obtain ⟨i, env, input, reply, called, running, rfl⟩ := openStep_call taken
  have headers := sealed.servers i running
  have lands : LandsOn (c.srv i) input := by
    rintro source ae rfl
    have sent := openCallOf_recv called
    refine ⟨?_, sealed.net _ sent ae rfl⟩
    cases l with
    | call j env' input' => cases input' <;> cases called
    | deliver k env' =>
      obtain ⟨p, at_, same⟩ := Option.map_eq_some_iff.mp called
      simp only [Prod.mk.injEq, Input.recv.injEq] at same
      obtain ⟨rfl, -, ⟨-, carries⟩, -⟩ := same
      exact retained p at_ ae carries
  cases ran : (c.srv i).handle env input with
  | ok p =>
    obtain ⟨s', answer⟩ := p
    have kept := headers.handle lands ran
    rw [call_ok ran]
    refine ⟨fun j up => ?_, fun p member ae carries => ?_⟩
    · by_cases here : j = i
      · subst here
        simpa using kept
      · simpa [Function.update_of_ne here] using sealed.servers j up
    · simp only [List.mem_append, Option.mem_toList] at member
      rcases member with (old | new) | answered
      · exact sealed.net p old ae carries
      · obtain ⟨j, sent⟩ := mem_packetsOf new carries
        exact kept.framed j ae (List.mem_of_mem_drop sent)
      · obtain ⟨msg, rfl, rfl⟩ := Option.map_eq_some_iff.mp answered
        cases carries
        exact absurd ran handle_answer
  | error f =>
    rw [call_error ran]
    refine ⟨fun j up => ?_, fun p member ae carries => ?_⟩
    · by_cases here : j = i
      · subst here
        simp at up
      · simp only [Function.update_of_ne here] at up ⊢
        exact sealed.servers j up
    · rcases List.mem_append.mp member with old | new
      · exact sealed.net p old ae carries
      · obtain ⟨j, sent⟩ := mem_packetsOf new carries
        exact headers.fault lands ran j ae (List.mem_of_mem_drop sent)

theorem sealed_enrolled (replicas : Nat) {cfg : Fin n → Config}
    (members : Fin n → List (Fin n × Bool)) (target : ∀ i, 1 ≤ (cfg i).logTarget) :
    Sealed (Cluster.enrolled replicas cfg members : Cluster n α) := by
  refine ⟨fun i _ => ?_, by simp [Cluster.enrolled]⟩
  have fresh := (enrol_start (α := α) i replicas (members i) (target i)).1
  refine ⟨fresh.indexChain, ?_, ?_⟩
  · change Headed (Server.enrol i replicas (cfg i) (members i)).log.entries
    rw [fresh.log]
    exact headed_nil
  · change ∀ id m, .sendAppendentries id m ∈
      (Server.enrol i replicas (cfg i) (members i) : Server (Fin n) α).calls → Framed m
    rw [fresh.calls]
    simp

/-! ## Packets -/

/-- What `raft_send_appendentries` describes at `idx`, less all entries but the first. -/
def Raft.Server.oneEntry (s : Server (Fin n) α) (idx : Int) : MsgAppendentries (Fin n) α :=
  { s.mkAppendentries idx with entries := (s.mkAppendentries idx).entries.take 1 }

section Packets

variable {s : Server (Fin n) α}

variable {idx : Int} {e : Entry (Fin n) α}

/-- A range read starts with the entry at its index. -/
theorem getFromIdx_head (wf : s.log.Wf) (low : s.log.front < idx) (high : idx ≤ s.log.back)
    (at_ : s.log.entries[(idx - 1).toNat]? = some e) : (logGetFromIdx s.log idx).take 1 = [e] := by
  have nonneg := wf.front_nonneg
  have some_ : logGetFromIdx s.log idx ≠ [] := fun none_ => by
    have := wf.getFromIdx_nil (by omega) none_
    omega
  obtain ⟨-, -, k, range⟩ := wf.getFromIdx_eq some_
  rw [range] at some_ ⊢
  have pos : k ≠ 0 := by
    rintro rfl
    simp at some_
  obtain ⟨inside, here⟩ := List.getElem?_eq_some_iff.mp at_
  rw [List.take_take, Nat.min_eq_left (by omega), List.drop_eq_getElem_cons inside, here]
  rfl

variable {nextIdx : Int}

theorem framed_eq_oneEntry (chain : IndexChain s) (headed : Headed s.log.entries)
    (low : s.log.front < idx) (high : idx ≤ s.log.back) (known : idx = 1 ∨ s.log.front < idx - 1)
    (at_ : s.log.entries[(idx - 1).toNat]? = some e) :
    { s.mkAppendentries nextIdx with
      prevLogIdx := e.head.prevLogIdx, prevLogTerm := e.head.prevLogTerm, entries := [e] } =
      s.oneEntry idx := by
  have nonneg := chain.wf.front_nonneg
  have head := headed _ e at_
  have here : ((idx - 1).toNat : Int) = idx - 1 := by omega
  have entries := getFromIdx_head chain.wf low high at_
  unfold Server.oneEntry
  simp only [Server.mkAppendentries, entries, head, here]
  by_cases first : idx = 1
  · subst first
    rfl
  · have before := known.resolve_left first
    obtain ⟨x, found⟩ := chain.wf.getAtIdx_exists (show s.log.front < idx - 1 by omega) (by omega)
    have stored := chain.wf.getAtIdx_some found
    have term : termBefore none s.log.entries (idx - 1).toNat = x.term := by
      rw [show (idx - 1).toNat = (idx - 1 - 1).toNat + 1 by omega]
      exact termBefore_succ stored
    simp only [if_pos (show 1 < idx by omega), Server.entryFromIdx, found, term]

/-- The packets of a send are the one-entry messages of consecutive indices. -/
theorem sendAppendentriesOpt_eq (chain : IndexChain s) (headed : Headed s.log.entries)
    (some_ : (s.mkAppendentries nextIdx).entries ≠ [])
    (known : nextIdx = 1 ∨ s.log.front < nextIdx - 1) :
    sendAppendentriesOpt (s.mkAppendentries nextIdx) =
      (List.range (min pktBurst (s.mkAppendentries nextIdx).entries.length)).map fun j : Nat =>
        s.oneEntry (nextIdx + j) := by
  have nonneg := chain.wf.front_nonneg
  have length := chain.wf.length_eq
  obtain ⟨low, high, k, range⟩ := chain.wf.getFromIdx_eq some_
  unfold sendAppendentriesOpt
  rw [if_neg some_]
  refine List.ext_getElem? fun j => ?_
  rw [List.getElem?_map, List.getElem?_map]
  by_cases inside : j < min pktBurst (s.mkAppendentries nextIdx).entries.length
  · have member : j < (s.mkAppendentries nextIdx).entries.length := by omega
    rw [List.getElem?_range inside, List.getElem?_take_of_lt (by omega),
      List.getElem?_eq_getElem member, Option.map_some, Option.map_some, Option.some.injEq]
    have at_ : s.log.entries[(nextIdx + j - 1).toNat]? =
        some (s.mkAppendentries nextIdx).entries[j] := by
      have read := List.getElem?_eq_getElem member
      simp only [Server.mkAppendentries, range] at read member ⊢
      rw [List.getElem?_take_of_lt (by simp at member; omega), List.getElem?_drop] at read
      rw [show (nextIdx + j - 1).toNat = (nextIdx - 1).toNat + j by omega]
      exact read
    have stored := (List.getElem?_eq_some_iff.mp at_).1
    refine framed_eq_oneEntry chain headed (by omega) (by omega) ?_ at_
    rcases Nat.eq_zero_or_pos j with rfl | pos
    · rcases known with first | before
      · exact Or.inl (by omega)
      · exact Or.inr (by omega)
    · exact Or.inr (by omega)
  · rw [List.getElem?_eq_none (by simp; omega), List.getElem?_eq_none (by simp; omega)]
    rfl

end Packets

/-- **Zero-copy headers.**  Along every run in which no appendentries with an entry of the released
part of the log is taken, every retained entry's packet carries the index and the term of the entry
before it; and what a server sends to a peer, from an index whose predecessor is retained, are the
one-entry messages described for the consecutive indices from the peer's cursor. -/
theorem headers_right (replicas : Nat) (cfg : Fin n → Config)
    (members : Fin n → List (Fin n × Bool)) (target : ∀ i, 1 ≤ (cfg i).logTarget) {c : Cluster n α}
    (run : Path Cluster.openStep Retained (Cluster.enrolled replicas cfg members) c) {i : Fin n}
    (running : c.up i = true) :
    (∀ idx e, (c.srv i).entryFromIdx idx = some e →
      e.head = ⟨idx - 1, termBefore none (c.srv i).log.entries (idx - 1).toNat⟩) ∧
    ∀ env id nd, (c.srv i).getNode id = some nd →
      ((c.srv i).mkAppendentries nd.nextIdx).entries ≠ [] →
      (nd.nextIdx = 1 ∨ (c.srv i).log.front < nd.nextIdx - 1) →
      ((c.srv i).raftSendAppendentries env id).calls = (c.srv i).calls ++
        (List.range (min pktBurst ((c.srv i).mkAppendentries nd.nextIdx).entries.length)).map
          fun j : Nat => .sendAppendentries id ((c.srv i).oneEntry (nd.nextIdx + j)) := by
  have sealed : Sealed c := run.keeps (sealed_enrolled replicas members target)
    fun _ _ _ sealed retained taken => sealed.step retained taken
  have headers := sealed.servers i running
  have nonneg := headers.chain.wf.front_nonneg
  refine ⟨fun idx e found => ?_, fun env id nd found some_ known => ?_⟩
  · have low := (logGetAtIdx_bounds found).1
    rw [headers.headed _ e (headers.chain.wf.getAtIdx_some found)]
    congr 1
    omega
  · have packets := sendAppendentriesOpt_eq headers.chain headers.headed some_ known
    unfold Server.raftSendAppendentries
    simp only [found]
    change (c.srv i).calls ++ (sendAppendentriesOpt _).map _ = _
    rw [packets, List.map_map]
    rfl

/-- Two voters. -/
def pairCluster : Cluster 2 Nat :=
  Cluster.enrolled 2 (fun _ => smallCfg) fun _ => [(0, true), (1, true)]

/-- A follower that stored the leader's first entry and a change of the configuration. -/
theorem headers_right_pair : ∃ c : Cluster 2 Nat,
    (c.srv 1).entryFromIdx 2 = some ⟨1, 1, .addNode 1, 12, ⟨1, 1⟩⟩ ∧
    ((∀ idx e, (c.srv 1).entryFromIdx idx = some e →
      e.head = ⟨idx - 1, termBefore none (c.srv 1).log.entries (idx - 1).toNat⟩) ∧
    ∀ env id nd, (c.srv 1).getNode id = some nd →
      ((c.srv 1).mkAppendentries nd.nextIdx).entries ≠ [] →
      (nd.nextIdx = 1 ∨ (c.srv 1).log.front < nd.nextIdx - 1) →
      ((c.srv 1).raftSendAppendentries env id).calls = (c.srv 1).calls ++
        (List.range (min pktBurst ((c.srv 1).mkAppendentries nd.nextIdx).entries.length)).map
          fun j : Nat => .sendAppendentries id ((c.srv 1).oneEntry (nd.nextIdx + j))) := by
  have run : ∃ c : Cluster 2 Nat, c ∈ exec Cluster.openStep Retained pairCluster
      [.tick 0 1000, .take 0, .take 1, .ask 0 11,
        .call 0 (wideEnv 0) (.recvEntry ⟨0, .addNode 1, 12⟩), .take 3, .take 4] ∧ c.up 1 = true ∧
        (c.srv 1).entryFromIdx 2 = some ⟨1, 1, .addNode 1, 12, ⟨1, 1⟩⟩ := by
    decide +kernel
  obtain ⟨c, path, running, stored⟩ := Path.exists_of_exec run
  exact ⟨c, stored, headers_right 2 (fun _ => smallCfg) _ (fun _ => le_refl 1) path running⟩

/-- A duplicated first message, taken after its entry was released, leaves its packet at index 4
under the header of index 1. -/
theorem headers_wrong : ∃ (c : Cluster 2 Nat) (e : Entry (Fin 2) Nat),
    Path Cluster.openStep anyStep pairCluster c ∧ c.up 1 = true ∧
      (c.srv 1).entryFromIdx 4 = some e ∧ e.head = ⟨0, 0⟩ := by
  have run : ∃ c : Cluster 2 Nat, c ∈ exec Cluster.openStep anyStep pairCluster
      [.tick 0 1000, .take 0, .take 1, .ask 0 11, .ask 0 12, .ask 0 13, .take 3, .take 4, .take 5,
        .take 8, .tick 0 200, .take 9, .tick 1 0, .call 1 (wideEnv 0) (.checkpoint 2), .tick 1 0,
        .take 3] ∧ c.up 1 = true ∧
        (c.srv 1).entryFromIdx 4 = some ⟨1, 3, .normal, 11, ⟨0, 0⟩⟩ := by
    decide +kernel
  obtain ⟨c, path, running, stored⟩ := Path.exists_of_exec run
  exact ⟨c, _, path, running, stored, rfl⟩

/-! ## Rolling back -/

/-- The answer makes the server send its source a range that starts no later than the answer's index
and with the entry after it. -/
def Resends (env : Env α) (s : Server (Fin n) α) (source : Fin n) (r : MsgAppendentriesResponse) :
    Prop :=
  ∃ s' ae e, s.raftRecvAppendentriesResponse env source r = .ok s' ∧
    s'.calls = s.calls ++ (sendAppendentriesOpt ae).map (.sendAppendentries source) ∧
    ae.prevLogIdx ≤ r.currentIdx ∧ s.entryFromIdx (r.currentIdx + 1) = some e ∧
    ae.entries.head? = some e

section RollBack

variable {env : Env α} {s : Server (Fin n) α} {source : Fin n} {nd : Node (Fin n)}
variable {r : MsgAppendentriesResponse}

/-- The filter drops an answer at or below what the peer had matched. -/
theorem stale_dropped (found : s.getNode source = some nd)
    (stale : r.currentIdx ≤ nd.matchIdx ∧ nd.matchIdx ≠ 0) :
    s.raftRecvAppendentriesResponse env source r = .ok s := by
  unfold Server.raftRecvAppendentriesResponse
  simp only [found]
  rw [if_pos stale]

theorem not_resends_of_stale (found : s.getNode source = some nd)
    (stale : r.currentIdx ≤ nd.matchIdx ∧ nd.matchIdx ≠ 0) : ¬ Resends env s source r := by
  rintro ⟨s', ae, e, ran, calls, -, -, head⟩
  rw [stale_dropped found stale] at ran
  cases ran
  have none_ : (sendAppendentriesOpt ae).map (Callback.sendAppendentries source) = [] :=
    List.append_right_eq_self.mp calls.symm
  unfold sendAppendentriesOpt at none_
  split at none_
  · rename_i empty
    rw [empty] at head
    cases head
  · rename_i some_
    obtain ⟨x, xs, entries⟩ := List.exists_cons_of_ne_nil some_
    simp [entries, pktBurst] at none_

/-- A failure that passes the filter moves the peer's cursor to the entry after its log and sends
from there. -/
theorem nack_sends (found : s.getNode source = some nd) (leader : s.state = .leader)
    (same : r.term = s.currentTerm) (nack : r.success = false) (low : 0 ≤ r.currentIdx)
    (behind : r.currentIdx < s.currentIdx)
    (fresh : ¬ (r.currentIdx ≤ nd.matchIdx ∧ nd.matchIdx ≠ 0)) :
    ∃ s', s.raftRecvAppendentriesResponse env source r = .ok s' ∧
      s'.calls = s.calls ++ (sendAppendentriesOpt (s.mkAppendentries (r.currentIdx + 1))).map
        (.sendAppendentries source) := by
  have here := (mem_of_getNode found).2
  have next : min (r.currentIdx + 1) s.currentIdx = r.currentIdx + 1 := by omega
  have cursor : (nd.setNextIdx (r.currentIdx + 1)).nextIdx = r.currentIdx + 1 := by
    simp only [Node.setNextIdx]
    rw [if_neg (by omega)]
  have read := getNode_updNode (f := (·.setNextIdx (r.currentIdx + 1))) (fun _ => rfl) found
  unfold Server.raftRecvAppendentriesResponse
  simp only [found]
  rw [if_neg fresh, if_neg (not_not.mpr leader), if_neg (by omega), if_neg (by omega), if_pos nack]
  simp only [next, cursor]
  rw [if_pos (by omega), here]
  refine ⟨_, rfl, ?_⟩
  unfold Server.raftSendAppendentries
  simp only [read, cursor]
  rfl

end RollBack

/-- **Negative acknowledgements.**  A leader answers a failure of its term from a peer whose log
ends at `r.currentIdx`, before the leader's, by sending the peer the entry it misses, exactly when
the peer had not already matched that index and the entry is still retained. -/
theorem nack_resends_iff (me : Fin n) (replicas : Nat) (cfg : Config)
    (members : List (Fin n × Bool)) (target : 1 ≤ cfg.logTarget) {env : Env α}
    {s : Server (Fin n) α}
    (run : Path Server.step anyStep (Server.enrol me replicas cfg members) s)
    (leader : s.state = .leader) {source : Fin n} {nd : Node (Fin n)}
    (found : s.getNode source = some nd) {r : MsgAppendentriesResponse}
    (same : r.term = s.currentTerm) (nack : r.success = false) (low : 0 ≤ r.currentIdx)
    (behind : r.currentIdx < s.currentIdx) :
    Resends env s source r ↔
      ¬ (r.currentIdx ≤ nd.matchIdx ∧ nd.matchIdx ≠ 0) ∧ s.log.front ≤ r.currentIdx := by
  have chain : IndexChain s := run.keeps (enrol_start me replicas members target).1.indexChain
    fun _ _ _ chain _ taken => (advances_step taken chain).1
  constructor
  · intro resends
    refine ⟨fun stale => not_resends_of_stale found stale resends, ?_⟩
    obtain ⟨-, -, e, -, -, -, retained, -⟩ := resends
    have := (logGetAtIdx_bounds retained).1
    omega
  · rintro ⟨fresh, retained⟩
    obtain ⟨s', ran, calls⟩ := nack_sends found leader same nack low behind fresh
    have inside : r.currentIdx + 1 ≤ s.log.back := behind
    obtain ⟨e, at_⟩ := chain.wf.getAtIdx_exists (show s.log.front < r.currentIdx + 1 by omega) inside
    have range := getFromIdx_head chain.wf (show s.log.front < r.currentIdx + 1 by omega) inside
      (chain.wf.getAtIdx_some at_)
    refine ⟨s', _, e, ran, calls, ?_, at_, ?_⟩
    · simp only [Server.mkAppendentries]
      split <;> omega
    · have first : ∀ l : List (Entry (Fin n) α), l.take 1 = [e] → l.head? = some e := by
        intro l only
        cases l with
        | nil => cases only
        | cons x xs =>
          simp only [List.take_succ_cons, List.take_zero, List.cons.injEq, and_true] at only
          rw [only]
          rfl
      exact first _ range

/-- A peer that has nothing is sent the first of two entries. -/
theorem nack_resends_iff_empty : ∃ (s : Server (Fin 2) Nat) (nd : Node (Fin 2)),
    s.currentIdx = 2 ∧ nd.matchIdx = 0 ∧
    (Resends (wideEnv 0) s 1 ⟨1, false, 0, 0⟩ ↔
      ¬ ((0 : Int) ≤ nd.matchIdx ∧ nd.matchIdx ≠ 0) ∧ s.log.front ≤ 0) := by
  have run : ∃ s ∈ exec Server.step anyStep
      (Server.enrol 0 2 smallCfg [(0, true), (1, true)] : Server (Fin 2) Nat)
      [(wideEnv 0, .periodic 1000), (wideEnv 0, .recv 1 (.requestvoteResponse ⟨1, true⟩)),
        (wideEnv 0, .recvEntry ⟨0, .normal, 11⟩), (wideEnv 0, .recvEntry ⟨0, .normal, 12⟩)],
      s.state = .leader ∧ s.currentTerm = 1 ∧ s.currentIdx = 2 ∧
        (s.getNode 1).map (·.matchIdx) = some 0 := by
    decide +kernel
  obtain ⟨s, path, leader, term, two, matched⟩ := Path.exists_of_exec run
  obtain ⟨nd, found, zero⟩ := Option.map_eq_some_iff.mp matched
  exact ⟨s, nd, two, zero, nack_resends_iff 0 2 smallCfg _ (le_refl 1) path leader found term.symm rfl
    (le_refl 0) (by rw [two]; decide)⟩

/-- The peer acknowledged entry 1, lost entry 2 and refused entry 3: its answer, with the true end of
its log, is dropped, and entry 2 is not sent. -/
theorem nack_dropped : ∃ c : Cluster 2 Nat,
    Path Cluster.openStep anyStep pairCluster c ∧ c.up 0 = true ∧ (c.srv 0).state = .leader ∧
      (c.srv 0).multiInflight = true ∧
      (⟨1, 0, .appendentriesResponse ⟨(c.srv 0).currentTerm, false, (c.srv 1).currentIdx, 0⟩⟩ :
        Packet 2 Nat) ∈ c.net ∧
      (c.srv 1).currentIdx < (c.srv 0).currentIdx ∧
      ∀ env, ¬ Resends env (c.srv 0) 1
        ⟨(c.srv 0).currentTerm, false, (c.srv 1).currentIdx, 0⟩ := by
  have run : ∃ c : Cluster 2 Nat, c ∈ exec Cluster.openStep anyStep pairCluster
      [.tick 0 1000, .take 0, .take 1, .ask 0 11, .take 3, .take 4, .ask 0 12, .ask 0 13,
        .take 6] ∧ c.up 0 = true ∧ (c.srv 0).state = .leader ∧
        (c.srv 0).multiInflight = true ∧
        (⟨1, 0, .appendentriesResponse ⟨(c.srv 0).currentTerm, false, (c.srv 1).currentIdx, 0⟩⟩ :
          Packet 2 Nat) ∈ c.net ∧
        (c.srv 1).currentIdx < (c.srv 0).currentIdx ∧
        ((c.srv 0).getNode 1).map (·.matchIdx) = some 1 ∧ (c.srv 1).currentIdx = 1 := by
    decide +kernel
  obtain ⟨c, path, running, leader, inflight, sent, behind, matched, one⟩ := Path.exists_of_exec run
  obtain ⟨nd, found, known⟩ := Option.map_eq_some_iff.mp matched
  refine ⟨c, path, running, leader, inflight, sent, behind, fun env => ?_⟩
  refine not_resends_of_stale found ⟨?_, by omega⟩
  change (c.srv 1).currentIdx ≤ nd.matchIdx
  omega

end Cyclone
