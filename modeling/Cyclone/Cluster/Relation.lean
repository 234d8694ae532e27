/-
# Cluster.Relation — the cluster against the history of terms

`Sim level c g` relates a cluster to a history `g` of term chains.  For each running server:
its term, log and vote are those of `g`; a candidate stands in `g`, a leader leads in `g`
with the chain of its term as its log, and what it has matched is acknowledged.  For
each packet ever sent: what its sender knew is still in `g`.

The relation has three levels.  `matching` is the log matching layer alone.  `steady` adds
that a server holds what it acknowledged in its current term, or has committed it.
`safe` adds `Safe`, and that what a server committed lies in a committed cut.

A step on server `i` changes `g` only about `i` (`Frame`); `Sim.update` and `Sim.down`
reduce a step of the cluster to what it does to one server.
-/
import Cyclone.Cluster.Seats
import Cyclone.Raft.IndexChain
import Cyclone.Theory.TermChainSteps

namespace Cyclone

open Cyclone.Raft Cyclone.Theory

set_option autoImplicit false

variable {n : Nat} {α : Type}

/-- The history of a cluster. -/
abbrev History (n : Nat) (α : Type) := TermChain (Fin n) Int (Entry (Fin n) α)

/-- How much of the relation holds. -/
inductive Level where
  | matching
  | steady
  | safe
deriving DecidableEq, Repr

/-- At this level acknowledged entries stay. -/
def Level.keeps : Level → Prop
  | .matching => False
  | _ => True

/-- At this level committed entries agree. -/
def Level.agrees : Level → Prop
  | .safe => True
  | _ => False

theorem Level.keeps_of_agrees {level : Level} (agrees : level.agrees) : level.keeps := by
  cases level
  · cases agrees
  · trivial
  · trivial

/-- The term of the last entry; 0 for an empty log. -/
def lastTerm {ι : Type} (l : List (Entry ι α)) : Int := (l.getLast?.map (·.term)).getD 0

/-- Every entry carries its index, the term of the entry before it, no configuration change, and
a term that is not negative. -/
def Stamped {ι : Type} (l : List (Entry ι α)) : Prop :=
  ∀ (k : Nat) (e : Entry ι α), l[k]? = some e →
    e.id = k ∧ e.head = ⟨k, termBefore none l k⟩ ∧ e.type = .normal ∧ 0 ≤ e.term

/-- `l` lies in a committed cut of a term up to `t`. -/
def Covered (g : History n α) (t : Int) (l : List (Entry (Fin n) α)) : Prop :=
  l = [] ∨ ∃ u m, u ≤ t ∧ g.Committed u m ∧ l <+: (g.chain u).take m

/-- What an appendentries message of server `src` says about the history. -/
structure AeSim (level : Level) (g : History n α) (src : Fin n)
    (ae : MsgAppendentries (Fin n) α) : Prop where
  led : g.led ae.term = some src
  one : ae.entries = [] ∨ ∃ e, ae.entries = [e]
  entry : ∀ e, ae.entries = [e] → ∃ k : Nat, ae.prevLogIdx = k ∧
    (g.chain ae.term)[k]? = some e ∧ ae.prevLogTerm = termBefore none (g.chain ae.term) k
  empty : ae.entries = [] → ae.prevLogTerm = -1 ∨ ae.prevLogIdx = 0 ∨
    ∃ k : Nat, ae.prevLogIdx = k ∧ 0 < k ∧ g.base ae.term ≤ k ∧ k ≤ (g.chain ae.term).length ∧
      ae.prevLogTerm = termBefore none (g.chain ae.term) k ∧ ae.leaderCommit ≤ ae.prevLogIdx
  commit : level.agrees → ae.leaderCommit ≤ 0 ∨
    ∃ u m, u ≤ ae.term ∧ g.Committed u m ∧ ae.leaderCommit ≤ (m : Int)

/-- What a packet says about the history. -/
def PacketSim (level : Level) (g : History n α) (p : Packet n α) : Prop :=
  p.src ≠ p.dst ∧
  match p.msg with
  | .requestvote rv => rv.candidateId = some p.src ∧
      ∃ l, g.cand p.src rv.term = some l ∧ rv.lastLogIdx = l.length ∧ rv.lastLogTerm = lastTerm l
  | .requestvoteResponse r => r.voteGranted = true → g.vote p.src r.term = some p.dst
  | .appendentries ae => AeSim level g p.src ae
  | .appendentriesResponse r => r.success = true →
      g.led r.term = some p.dst ∧ r.currentIdx ≤ (g.acked p.src r.term : Int)

/-- What the role of a running server says about the history. -/
structure RoleSim (g : History n α) (i : Fin n) (s : Server (Fin n) α) : Prop where
  self : s.state ≠ .follower → s.votedFor = some i
  leads : s.state = .leader → g.led s.currentTerm = some i ∧
    s.log.entries = g.chain s.currentTerm ∧ g.acked i s.currentTerm = s.log.entries.length
  follows : s.state ≠ .leader → g.led s.currentTerm ≠ some i
  stands : s.state = .candidate → g.cand i s.currentTerm = some s.log.entries
  voters : s.state = .candidate → ∀ nd ∈ s.nodes, nd.votedForMe = true → nd.id ≠ i →
    g.vote nd.id s.currentTerm = some i
  matches_ : s.state = .leader → ∀ nd ∈ s.nodes, nd.id ≠ i →
    nd.matchIdx ≤ (g.acked nd.id s.currentTerm : Int)

theorem RoleSim.follower {g : History n α} {i : Fin n} {s : Server (Fin n) α}
    (follower : s.state = .follower) (unled : g.led s.currentTerm ≠ some i) : RoleSim g i s where
  self := fun role => absurd follower role
  leads := fun role => by rw [follower] at role; cases role
  follows := fun _ => unled
  stands := fun role => by rw [follower] at role; cases role
  voters := fun role => by rw [follower] at role; cases role
  matches_ := fun role => by rw [follower] at role; cases role

/-- A running server against the history. -/
structure ServerSim (level : Level) (g : History n α) (i : Fin n) (s : Server (Fin n) α) : Prop
    extends RoleSim g i s where
  chain : IndexChain s
  node : s.node = some i
  replicas : s.replicas = n
  members : s.nodes.map Node.member = (List.finRange n).map fun j => (j, true)
  term_nonneg : 0 ≤ s.currentTerm
  cur : g.cur i = s.currentTerm
  log : g.log i = s.log.entries
  vote : g.vote i s.currentTerm = s.votedFor
  holds : level.keeps →
    (g.chain s.currentTerm).take (g.acked i s.currentTerm) <+: s.log.entries ∨
      (g.acked i s.currentTerm : Int) ≤ s.commitIdx
  commits : level.agrees →
    Covered g s.currentTerm (s.log.entries.take s.commitIdx.toNat)

/-- What a server applied, running or not. -/
def AppliedSim (level : Level) (g : History n α) (s : Server (Fin n) α) : Prop :=
  ∃ l, appliedOf s.calls = indexed l ∧ (level.agrees → ∃ t, Covered g t l)

/-- The cluster against the history. -/
structure Sim (level : Level) (c : Cluster n α) (g : History n α) : Prop where
  matched : g.Matched Entry.term
  stamped : ∀ t, Stamped (g.chain t)
  safe : level.agrees → g.Safe
  server : ∀ i, c.up i = true → ServerSim level g i (c.srv i)
  packet : ∀ p ∈ c.net, PacketSim level g p
  applied : ∀ i, AppliedSim level g (c.srv i)

/-! ## Growth of the history -/

section Growth

variable {level : Level} {g g' : History n α}

variable {t : Int} {l : List (Entry (Fin n) α)}

theorem Covered.mono (matched : g.Matched Entry.term) (le : g.Le g') {t' : Int} (up : t ≤ t')
    (covered : Covered g t l) : Covered g' t' l := by
  rcases covered with nil | ⟨u, m, early, committed, pre⟩
  · exact Or.inl nil
  · obtain ⟨committed', same⟩ := committed.mono matched le
    exact Or.inr ⟨u, m, early.trans up, committed', same ▸ pre⟩

theorem Covered.starts {l' : List (Entry (Fin n) α)} (covered : Covered g t l) (pre : l' <+: l) :
    Covered g t l' := by
  rcases covered with rfl | ⟨u, m, early, committed, inside⟩
  · exact Or.inl (List.prefix_nil.mp pre)
  · exact Or.inr ⟨u, m, early, committed, pre.trans inside⟩

variable {ι : Type}

theorem termBefore_starts {l l' : List (Entry ι α)} (pre : l <+: l') {k : Nat}
    (inside : k ≤ l.length) : termBefore none l' k = termBefore none l k := by
  cases k with
  | zero => rfl
  | succ k => simp only [termBefore, getElem?_prefix_eq pre (show k < l.length by omega)]

theorem Stamped.starts {l l' : List (Entry ι α)} (stamped : Stamped l) (pre : l' <+: l) :
    Stamped l' := by
  intro k e at_
  have inside := (List.getElem?_eq_some_iff.mp at_).1
  obtain ⟨id, head, rest⟩ := stamped k e (by rw [getElem?_prefix_eq pre inside, at_])
  exact ⟨id, by rw [head, termBefore_starts pre (le_of_lt inside)], rest⟩

/-- Logs built from stamped chains are stamped. -/
theorem stamped_of_chained (stamped : ∀ t, Stamped (g.chain t)) (chained : g.Chained Entry.term l) :
    Stamped l := by
  intro k e at_
  obtain ⟨-, -, pre⟩ := chained _ e (snoc_prefix_of_getElem? at_)
  rw [← take_succ_of_getElem? at_] at pre
  have cut := ((stamped e.term).starts pre) k e (by
    rw [List.getElem?_take_of_lt (by omega), at_])
  have inside := (List.getElem?_eq_some_iff.mp at_).1
  rw [← termBefore_starts (List.take_prefix (k + 1) l)
    (by rw [List.length_take_of_le (by omega)]; omega)] at cut
  exact cut

/-- An entry of a message is the only one. -/
theorem AeSim.only {src : Fin n} {ae : MsgAppendentries (Fin n) α} (sim : AeSim level g src ae) {j : Nat}
    {e : Entry (Fin n) α} (at_ : ae.entries[j]? = some e) : j = 0 ∧ ae.entries = [e] := by
  rcases sim.one with none_ | ⟨e', only⟩
  · rw [none_] at at_
    cases at_
  · have short := (List.getElem?_eq_some_iff.mp at_).1
    rw [only, List.length_singleton] at short
    obtain rfl : j = 0 := by omega
    rw [only] at at_
    cases at_
    exact ⟨rfl, only⟩

theorem AeSim.mono (matched : g.Matched Entry.term) (le : g.Le g') {src : Fin n}
    {ae : MsgAppendentries (Fin n) α} (sim : AeSim level g src ae) : AeSim level g' src ae := by
  have led : (g.led ae.term).isSome := by rw [sim.led]; rfl
  have grows := le.chain ae.term led
  refine ⟨le.led _ _ sim.led, sim.one, fun e only => ?_, fun none_ => ?_, fun agrees => ?_⟩
  · obtain ⟨k, prev, at_, before⟩ := sim.entry e only
    have inside := (List.getElem?_eq_some_iff.mp at_).1
    exact ⟨k, prev, by rw [getElem?_prefix_eq grows inside, at_],
      by rw [before, termBefore_starts grows (le_of_lt inside)]⟩
  · rcases sim.empty none_ with behind | zero | ⟨k, prev, pos, base, inside, before, low⟩
    · exact Or.inl behind
    · exact Or.inr (Or.inl zero)
    · exact Or.inr (Or.inr ⟨k, prev, pos, le.base _ led ▸ base, inside.trans grows.length_le,
        by rw [before, termBefore_starts grows inside], low⟩)
  · rcases sim.commit agrees with none_ | ⟨u, m, early, committed, bound⟩
    · exact Or.inl none_
    · exact Or.inr ⟨u, m, early, (committed.mono matched le).1, bound⟩

theorem PacketSim.mono (matched : g.Matched Entry.term) (le : g.Le g') {p : Packet n α}
    (sim : PacketSim level g p) : PacketSim level g' p := by
  obtain ⟨src, dst, msg⟩ := p
  refine ⟨sim.1, ?_⟩
  cases msg with
  | requestvote rv =>
    obtain ⟨-, candidate, l, stood, rest⟩ := sim
    exact ⟨candidate, l, le.cand _ _ _ stood, rest⟩
  | requestvoteResponse r => exact fun granted => le.vote _ _ _ (sim.2 granted)
  | appendentries ae => exact AeSim.mono matched le sim.2
  | appendentriesResponse r =>
    intro success
    obtain ⟨led, bound⟩ := sim.2 success
    have := le.acked src r.term
    exact ⟨le.led _ _ led, bound.trans (by exact_mod_cast this)⟩

variable {s : Server (Fin n) α}

theorem AppliedSim.mono (matched : g.Matched Entry.term) (le : g.Le g')
    (sim : AppliedSim level g s) : AppliedSim level g' s := by
  obtain ⟨l, calls, covered⟩ := sim
  refine ⟨l, calls, fun agrees => ?_⟩
  obtain ⟨t, inside⟩ := covered agrees
  exact ⟨t, inside.mono matched le (le_refl t)⟩

/-- The history changed only about server `i`. -/
structure Frame (i : Fin n) (g g' : History n α) : Prop where
  le : g.Le g'
  cur : ∀ j, j ≠ i → g'.cur j = g.cur j
  log : ∀ j, j ≠ i → g'.log j = g.log j
  vote : ∀ j, j ≠ i → ∀ t, g'.vote j t = g.vote j t
  acked : ∀ j, j ≠ i → ∀ t, g'.acked j t = g.acked j t
  led : ∀ j, j ≠ i → ∀ t, g'.led t = some j → g.led t = some j
  chain : ∀ j, j ≠ i → ∀ t, g.led t = some j → g'.chain t = g.chain t

theorem Frame.refl (i : Fin n) (g : History n α) : Frame i g g :=
  ⟨.refl g, fun _ _ => rfl, fun _ _ => rfl, fun _ _ _ => rfl, fun _ _ _ => rfl,
    fun _ _ _ led => led, fun _ _ _ _ => rfl⟩

variable {i : Fin n}

theorem Frame.trans {g'' : History n α} (first : Frame i g g') (second : Frame i g' g'') :
    Frame i g g'' := by
  refine ⟨first.le.trans second.le, fun j other => ?_, fun j other => ?_, fun j other t => ?_,
    fun j other t => ?_, fun j other t led => ?_, fun j other t led => ?_⟩
  · rw [second.cur j other, first.cur j other]
  · rw [second.log j other, first.log j other]
  · rw [second.vote j other, first.vote j other]
  · rw [second.acked j other, first.acked j other]
  · exact first.led j other t (second.led j other t led)
  · rw [second.chain j other t (first.le.led t j led), first.chain j other t led]

/-- A server the step is not about keeps its place. -/
theorem ServerSim.frame (matched : g.Matched Entry.term) {j : Fin n} (other : j ≠ i)
    (frame : Frame i g g') (sim : ServerSim level g j s) :
    ServerSim level g' j s where
  chain := sim.chain
  node := sim.node
  replicas := sim.replicas
  members := sim.members
  term_nonneg := sim.term_nonneg
  cur := (frame.cur j other).trans sim.cur
  log := (frame.log j other).trans sim.log
  vote := (frame.vote j other _).trans sim.vote
  self := sim.self
  leads leader := by
    obtain ⟨led, chain, acked⟩ := sim.leads leader
    exact ⟨frame.le.led _ _ led, by rw [frame.chain j other _ led, chain],
      (frame.acked j other _).trans acked⟩
  follows below led := sim.follows below (frame.led j other _ led)
  stands candidate := frame.le.cand _ _ _ (sim.stands candidate)
  voters candidate nd member granted peer :=
    frame.le.vote _ _ _ (sim.voters candidate nd member granted peer)
  matches_ leader nd member peer := by
    have bound := sim.matches_ leader nd member peer
    have grows := frame.le.acked nd.id s.currentTerm
    omega
  holds keeps := by
    rw [frame.acked j other]
    cases led : g.led s.currentTerm with
    | none =>
      have none_ := matched.acked_le j s.currentTerm
      rw [matched.unled _ led] at none_
      right
      have := sim.chain.applied_le
      have := sim.chain.front_le
      have := sim.chain.wf.front_nonneg
      simp only [List.length_nil, Nat.le_zero] at none_
      omega
    | some d =>
      rw [take_prefix_eq (frame.le.chain _ (by rw [led]; rfl)) (matched.acked_le j _)]
      exact sim.holds keeps
  commits agrees := (sim.commits agrees).mono matched frame.le (le_refl _)

end Growth

/-! ## One server's step -/

section Update

variable {level : Level} {c : Cluster n α} {g g' : History n α} {i : Fin n}

variable {s' : Server (Fin n) α}

/-- A call of server `i` that returned: what is to be shown is about `i` and its packets. -/
theorem Sim.update (sim : Sim level c g) (frame : Frame i g g') (matched : g'.Matched Entry.term)
    (stamped : ∀ t, Stamped (g'.chain t)) (safe : level.agrees → g'.Safe)
    (server : ServerSim level g' i s') (applied : AppliedSim level g' s')
    {sent : List (Packet n α)} (packets : ∀ p ∈ sent, PacketSim level g' p) :
    Sim level { c with srv := Function.update c.srv i s', net := c.net ++ sent } g' where
  matched := matched
  stamped := stamped
  safe := safe
  server j running := by
    by_cases here : j = i
    · subst here
      simpa using server
    · simp only [Function.update_of_ne here]
      exact (sim.server j running).frame sim.matched here frame
  packet p member := by
    rcases List.mem_append.mp member with old | new
    · exact (sim.packet p old).mono sim.matched frame.le
    · exact packets p new
  applied j := by
    by_cases here : j = i
    · subst here
      simpa using applied
    · simp only [Function.update_of_ne here]
      exact (sim.applied j).mono sim.matched frame.le

/-- A call that ended the process of server `i` without sending or applying anything. -/
theorem Sim.down (sim : Sim level c g) (applied : appliedOf s'.calls = appliedOf (c.srv i).calls) :
    Sim level
      { srv := Function.update c.srv i s', up := Function.update c.up i false, net := c.net } g where
  matched := sim.matched
  stamped := sim.stamped
  safe := sim.safe
  server j running := by
    by_cases here : j = i
    · subst here
      simp at running
    · simp only [Function.update_of_ne here] at running ⊢
      exact sim.server j running
  packet := sim.packet
  applied j := by
    by_cases here : j = i
    · subst here
      obtain ⟨l, calls, covered⟩ := sim.applied j
      exact ⟨l, by simpa [applied] using calls, covered⟩
    · simp only [Function.update_of_ne here]
      exact sim.applied j

end Update

end Cyclone
