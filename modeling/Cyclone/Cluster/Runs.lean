/-
# Cluster.Runs — the relation along a run

`Sim.step` dispatches a step of the cluster to the handlers' moves, and `sim_run` is the
induction: from the servers `cyclone_setup` leaves, along every run whose deliveries meet
the conditions of a level, the relation of that level holds.
-/
import Cyclone.Cluster.Acceptance

namespace Cyclone

open Cyclone.Raft Cyclone.Theory

set_option autoImplicit false

variable {n : Nat} {α : Type}
variable {level : Level} {i : Fin n} {g : History n α} {s s' : Server (Fin n) α}

/-! ## The clock -/

/-- `raft_periodic` up to the applying: a leader sends, a server without a leader stands. -/
theorem periodicTick_moves (two : 2 ≤ n) (env : Env α) (good : Good level g i s) (msec : Int) :
    ∃ s' g', s.periodicTick env msec = .ok s' ∧ Moves level i g s g' s' := by
  have quiet : Alike s { s with timeoutElapsed := s.timeoutElapsed + msec } :=
    ⟨fun chain => { chain with }, rfl, rfl, rfl, rfl, rfl, rfl, rfl, rfl⟩
  have ticked : Moves level i g s g { s with timeoutElapsed := s.timeoutElapsed + msec } :=
    .of_alike good quiet ⟨[], by simp, rfl⟩
  have sim := ticked.good.server
  have alone : ¬ n = 1 := by omega
  have many : 1 < s.nodes.length := by
    rw [good.server.seated.length]
    omega
  unfold Server.periodicTick
  simp only [sim.seated.numVoting, sim.seated.selfVoting, if_neg alone]
  split
  · rename_i leader
    exact ⟨_, g, rfl, ticked.trans (.of_sent ticked.good leader (sent_leaderTick env _ msec))⟩
  · split
    · rw [if_pos ⟨trivial, many⟩]
      exact ⟨_, _, rfl, ticked.trans (.of_stand env ticked.good)⟩
    · exact ⟨_, g, rfl, ticked⟩

theorem periodic_moves (two : 2 ≤ n) (env : Env α) (good : Good level g i s) (msec : Int) :
    ∃ s' g', s.raftPeriodic env msec = .ok s' ∧ Moves level i g s g' s' := by
  obtain ⟨t, h, ticked, moves⟩ := periodicTick_moves two env good msec
  unfold Server.raftPeriodic
  simp only [ticked]
  cases ran : t.applyCommitted env with
  | error f => exact absurd ran moves.good.applies
  | ok p =>
    obtain ⟨u, done⟩ := p
    have applied := moves.trans (.of_apply moves.good ran)
    cases done with
    | true => exact ⟨_, h, rfl, applied.trans (.of_compactLog applied.good)⟩
    | false => exact ⟨u, h, rfl, applied⟩

theorem checkpoint_moves (good : Good level g i s) (logIndex : Int) :
    Moves level i g s g (s.raftCheckpoint logIndex) :=
  .of_alike good
    ⟨fun chain => (advances_raftCheckpoint s logIndex chain).1, rfl, rfl, rfl, rfl, rfl, rfl, rfl,
      rfl⟩ ⟨[], by simp [Server.raftCheckpoint], rfl⟩

/-! ## A step -/

/-- An appendentries message meets `ok`; any other does. -/
def MsgMeets (ok : MsgAppendentries (Fin n) α → Prop) : Msg (Fin n) α → Prop
  | .appendentries ae => ok ae
  | _ => True

instance (ok : MsgAppendentries (Fin n) α → Prop) [DecidablePred ok] :
    (msg : Msg (Fin n) α) → Decidable (MsgMeets ok msg)
  | .appendentries ae => inferInstanceAs (Decidable (ok ae))
  | .requestvote _ | .requestvoteResponse _ | .appendentriesResponse _ => isTrue trivial

/-- Every delivered appendentries meets `ok` in its receiver's state. -/
def Cluster.Meets (ok : Server (Fin n) α → MsgAppendentries (Fin n) α → Prop) (c : Cluster n α) :
    Label n α → Prop
  | .deliver k _ => ∀ p ∈ c.net[k]?, MsgMeets (ok (c.srv p.dst)) p.msg
  | _ => True

instance (ok : Server (Fin n) α → MsgAppendentries (Fin n) α → Prop) [∀ s, DecidablePred (ok s)]
    (c : Cluster n α) : (l : Label n α) → Decidable (c.Meets ok l)
  | .deliver k _ =>
    inferInstanceAs (Decidable (∀ p ∈ c.net[k]?, MsgMeets (ok (c.srv p.dst)) p.msg))
  | .periodic .. | .recvEntry .. | .recvEntryBatch .. | .checkpoint .. => isTrue trivial

variable {c : Cluster n α} {l : Label n α}

theorem Cluster.Meets.mono {ok ok' : Server (Fin n) α → MsgAppendentries (Fin n) α → Prop}
    (weaker : ∀ s ae, ok s ae → ok' s ae) (meets : c.Meets ok l) : c.Meets ok' l := by
  cases l with
  | deliver k env =>
    intro p sent
    have met := meets p sent
    cases message : p.msg with
    | appendentries ae =>
      rw [message] at met
      exact weaker _ ae met
    | _ => trivial
  | _ => trivial

/-- How a call ends on a running server: in a move of the history, or before it sent or applied
anything. -/
theorem Good.handles (two : 2 ≤ n) (good : Good level g i s) (env : Env α) :
    (∀ msec, ∃ s' g', s.handle env (.periodic msec) = .ok (s', none) ∧ Moves level i g s g' s') ∧
    (∀ e, e.type = .normal →
      ∃ s' g', s.handle env (.recvEntry e) = .ok (s', none) ∧ Moves level i g s g' s') ∧
    (∀ es, (∀ e ∈ es, e.type = .normal) →
      ∃ s' g', s.handle env (.recvEntryBatch es) = .ok (s', none) ∧ Moves level i g s g' s') ∧
    (∀ idx, ∃ s' g', s.handle env (.checkpoint idx) = .ok (s', none) ∧
      Moves level i g s g' s') := by
  refine ⟨fun msec => ?_, fun e plain => ?_, fun es plain => ?_, fun idx => ?_⟩
  · obtain ⟨t, h, ran, moves⟩ := periodic_moves two env good msec
    exact ⟨t, h, by simp only [Server.handle, ran]; rfl, moves⟩
  · obtain ⟨t, r, h, ran, moves⟩ := recvEntry_moves two env good plain
    exact ⟨t, h, by simp only [Server.handle, ran]; rfl, moves⟩
  · obtain ⟨t, r, h, ran, moves⟩ := recvEntryBatch_moves two env good plain
    exact ⟨t, h, by simp only [Server.handle, ran]; rfl, moves⟩
  · exact ⟨_, g, rfl, checkpoint_moves good idx⟩

/-- How a delivery ends on a running server. -/
theorem Good.receives (two : 2 ≤ n) (good : Good level g i s) (env : Env α) {source : Fin n}
    {msg : Msg (Fin n) α} (packet : PacketSim level g ⟨source, i, msg⟩)
    (admits : ∀ ae, msg = .appendentries ae → level.Admits s ae) :
    (∃ s' answer g', s.handle env (.recv source msg) = .ok (s', answer) ∧
      Moves level i g s g' s' ∧ ∀ m ∈ answer, PacketSim level g' ⟨i, source, m⟩) ∨
    ∃ f, s.handle env (.recv source msg) = .error f ∧ Internal s f.server := by
  simp only [Server.handle]
  cases msg with
  | requestvote rv =>
    obtain ⟨t, r, h, ran, moves, told⟩ := recvRequestvote_moves good packet
    refine Or.inl ⟨t, some (.requestvoteResponse r), h, ?_, moves, fun m given => ?_⟩
    · simp only [Server.handleIncoming, ran]
      rfl
    · cases given
      exact told
  | requestvoteResponse r =>
    obtain ⟨h, moves⟩ := recvRequestvoteResponse_moves env good packet
    exact Or.inl ⟨_, none, h, rfl, moves, fun m given => by cases given⟩
  | appendentries ae =>
    rcases recvAppendentries_moves two good packet (admits ae rfl) with
      ⟨t, r, h, ran, moves, told⟩ | ⟨f, ended, internal⟩
    · refine Or.inl ⟨t, some (.appendentriesResponse r), h, ?_, moves, fun m given => ?_⟩
      · simp only [Server.handleIncoming, ran]
        rfl
      · cases given
        exact told
    · refine Or.inr ⟨f, ?_, internal⟩
      simp only [Server.handleIncoming, ended]
      rfl
  | appendentriesResponse r =>
    rcases recvAppendentriesResponse_moves two env good packet with
      ⟨t, h, ran, moves⟩ | ⟨f, ended, internal, -⟩
    · refine Or.inl ⟨t, none, h, ?_, moves, fun m given => by cases given⟩
      simp only [Server.handleIncoming, ran]
      rfl
    · refine Or.inr ⟨f, ?_, internal⟩
      simp only [Server.handleIncoming, ended]
      rfl

/-- **A step keeps the relation**, and the history only grows. -/
theorem Sim.step (two : 2 ≤ n) {c' : Cluster n α} (sim : Sim level c g)
    (meets : c.Meets level.Admits l) (taken : c.step l = some c') :
    ∃ g', g.Le g' ∧ Sim level c' g' := by
  obtain ⟨i, env, input, reply, called, running, rfl⟩ := step_call taken
  have good := sim.good running
  obtain ⟨clock, entry, batch, checkpoint⟩ := good.handles two env
  have quiet : (∃ s' g', (c.srv i).handle env input = .ok (s', none) ∧
      Moves level i g (c.srv i) g' s') →
      ∃ g', g.Le g' ∧ Sim level (c.call i env input reply) g' := by
    rintro ⟨s', g', returned, moves⟩
    exact ⟨g', moves.frame.le, sim.returns returned moves fun m given => by cases given⟩
  cases l with
  | periodic j env' msec =>
    cases called
    exact quiet (clock msec)
  | recvEntry j env' id data =>
    cases called
    exact quiet (entry _ rfl)
  | recvEntryBatch j env' es =>
    cases called
    refine quiet (batch _ fun e member => ?_)
    obtain ⟨x, -, rfl⟩ := List.mem_map.mp member
    rfl
  | checkpoint j env' idx =>
    cases called
    exact quiet (checkpoint idx)
  | deliver k env' =>
    obtain ⟨p, sent, same⟩ := Option.map_eq_some_iff.mp called
    cases same
    have packet := sim.packet p (List.mem_of_getElem? sent)
    have admits : ∀ ae, p.msg = .appendentries ae → level.Admits (c.srv p.dst) ae := by
      intro ae message
      have met := meets p sent
      rwa [message] at met
    rcases good.receives two env packet admits with
      ⟨s', answer, g', returned, moves, told⟩ | ⟨f, ended, internal⟩
    · exact ⟨g', moves.frame.le, sim.returns returned moves told⟩
    · exact ⟨g, .refl g, sim.ends ended internal⟩

/-! ## The start -/

/-- The history before anything happened. -/
def History.start : History n α where
  cur := fun _ => 0
  log := fun _ => []
  led := fun _ => none
  chain := fun _ => []
  base := fun _ => 0
  vote := fun _ _ => none
  cand := fun _ _ => none
  acked := fun _ _ => 0

theorem History.start_matched : (History.start : History n α).Matched Entry.term := by
  have chained : (History.start : History n α).Chained Entry.term [] := by
    intro p e pre
    simp at pre
  refine ⟨fun _ => chained, fun _ => chained, ?_, ?_, ?_, ?_, ?_, ?_, ?_, ?_, ?_, ?_, ?_, ?_, ?_⟩ <;>
    simp [History.start]

theorem History.start_safe : (History.start : History n α).Safe := by
  refine ⟨fun j t m above acked => ?_, fun t m t' above short => ?_,
    fun j t m t' c l above acked => ?_⟩ <;> simp [History.start] at *

theorem sim_initial (cfg : Fin n → Config) (target : ∀ i, 1 ≤ (cfg i).logTarget) :
    Sim level (Cluster.initial cfg : Cluster n α) History.start := by
  have server : ∀ i, ServerSim level (History.start : History n α) i
      (Server.boot i n (cfg i) (List.finRange n)) := by
    intro i
    have chain := (boot_fresh (α := α) i n (List.finRange n) (target i)).indexChain
    rw [boot_all] at chain ⊢
    exact
      { chain := chain
        node := rfl
        replicas := rfl
        members := by
          simp only [List.map_map]
          rfl
        term_nonneg := le_refl 0
        cur := rfl
        log := rfl
        vote := rfl
        toRoleSim := .follower rfl fun led => by cases led
        holds := fun _ => Or.inl List.nil_prefix
        commits := fun _ => Or.inl rfl }
  have stamped : ∀ t, Stamped ((History.start : History n α).chain t) := by
    intro t k e at_
    simp [History.start] at at_
  refine ⟨History.start_matched, stamped, fun _ => History.start_safe, fun i _ => server i, ?_,
    fun i => ?_⟩
  · intro p member
    cases member
  · exact (Good.mk History.start_matched stamped (fun _ => History.start_safe) (server i)).applied

/-- **The relation along a run.** -/
theorem sim_run (two : 2 ≤ n) (cfg : Fin n → Config) (target : ∀ i, 1 ≤ (cfg i).logTarget)
    (run : Path Cluster.step (Cluster.Meets level.Admits) (Cluster.initial cfg) c) :
    ∃ g, Sim level c g :=
  run.keeps (I := fun c => ∃ g, Sim level c g) ⟨_, sim_initial cfg target⟩
    fun _ _ _ ⟨_, sim⟩ meets taken => (sim.step two meets taken).imp fun _ kept => kept.2

end Cyclone
