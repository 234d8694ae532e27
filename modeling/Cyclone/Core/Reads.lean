/-
# Core.Reads — reads that bypass the log

A read-only RPC is not replicated.  `accept` hands it to its core when the
packet carries the replica's term and the replica takes itself for the leader; the core runs it in
the order of its ring, behind everything appended before, and answers.  Nobody asks a majority.

A `Site` is a cluster whose servers stand over executors.  A leader that others have left behind
still accepts and answers, so a reply can be forgotten by a later read
(`read_after_reply_stale`); a read accepted in a term no older than the reply's sees it
(`read_after_reply`).
-/
import Cyclone.Core.Executor
import Cyclone.Cluster.Safety

namespace Cyclone.Core

open Cyclone.Raft Cyclone.Theory

set_option autoImplicit false

variable {n : Nat} {π : Type}

/-- A cluster, the executors of each replica and how many of its callbacks they have seen. -/
structure Site (n : Nat) (π : Type) where
  cluster : Cluster n (List (Rpc π))
  exec : Fin n → Exec π
  played : Fin n → Nat

/-- What can happen: a step of the cluster, or, on one replica, the next callback, a publication, a
turn of an executor, or the arrival of a read-only packet. -/
inductive Move (n : Nat) (π : Type) where
  | raft (l : Label n (List (Rpc π)))
  | play (i : Fin n)
  | publish (i : Fin n)
  | exec (i : Fin n) (core : Nat)
  | accept (i : Fin n) (rpc : Rpc π) (junk : Wal)

namespace Site

/-- One replica of the site. -/
def replica (w : Site n π) (i : Fin n) : Replica (Fin n) π :=
  ⟨w.cluster.srv i, w.exec i, w.played i⟩

/-- Everything server `i` called back has been played: its thread is between two calls. -/
def Idle (w : Site n π) (i : Fin n) : Prop :=
  w.cluster.up i = true ∧ w.played i = (w.cluster.srv i).calls.length

instance (w : Site n π) (i : Fin n) : Decidable (w.Idle i) :=
  inferInstanceAs (Decidable (_ ∧ _))

/-- A replica whose raft server did not change. -/
def put (w : Site n π) (i : Fin n) (r : Replica (Fin n) π) : Site n π :=
  { w with exec := Function.update w.exec i r.exec, played := Function.update w.played i r.played }

/-- A move of one replica that does not call its server. -/
def act (w : Site n π) (i : Fin n) (a : Act (Fin n) π) : Option (Site n π) :=
  ((w.replica i).step a).map (w.put i)

/-- `accept` for a read-only packet, after the publication of the round: the term must match and the
snapshot be odd. -/
def Accepts (w : Site n π) (i : Fin n) (rpc : Rpc π) : Prop :=
  w.Idle i ∧ rpc.readOnly = true ∧ rpc.quorumTerm = (w.cluster.srv i).currentTerm ∧
    (w.cluster.srv i).cycloneIsLeader = true

instance (w : Site n π) (i : Fin n) (rpc : Rpc π) : Decidable (w.Accepts i rpc) :=
  inferInstanceAs (Decidable (_ ∧ _ ∧ _ ∧ _))

def step (w : Site n π) : Move n π → Option (Site n π)
  | .raft l =>
    (w.cluster.callOf l).bind fun p =>
      if w.Idle p.1 then (w.cluster.step l).map fun c => { w with cluster := c } else none
  | .play i => if w.cluster.up i then w.act i .play else none
  | .publish i => if w.Idle i then w.act i .publish else none
  | .exec i core => if w.cluster.up i then w.act i (.exec core) else none
  | .accept i rpc junk =>
    if w.Accepts i rpc then (w.act i .publish).bind fun v => v.act i (.direct rpc junk) else none

/-- Every replica as `cyclone_setup` and `dispatcher_start` leave it. -/
def initial (cfg : Fin n → Config) : Site n π where
  cluster := Cluster.initial cfg
  exec := fun _ => .init
  played := fun _ => 0

/-- The deliveries of the run are orderly. -/
def Orderly (w : Site n π) : Move n π → Prop
  | .raft l => w.cluster.Meets Cyclone.Orderly l
  | _ => True

instance (w : Site n π) : (m : Move n π) → Decidable (w.Orderly m)
  | .raft l => inferInstanceAs (Decidable (w.cluster.Meets Cyclone.Orderly l))
  | .play _ | .publish _ | .exec _ _ | .accept _ _ _ => isTrue trivial

/-- What a step is made of: one step of the cluster on an idle replica, or acts of one running
replica. -/
theorem step_keeps {I : Site n π → Prop} {w w' : Site n π} {m : Move n π}
    (moved : w.step m = some w') (start : I w)
    (raft : ∀ l i env input reply c, m = .raft l →
      w.cluster.callOf l = some (i, env, input, reply) → w.Idle i → w.cluster.step l = some c →
      c = w.cluster.call i env input reply → I { w with cluster := c })
    (acts : ∀ v i a v', v.cluster = w.cluster → w.cluster.up i = true → I v →
      (∀ env input, a ≠ .call env input) → v.act i a = some v' → I v') : I w' := by
  cases m with
  | raft l =>
    obtain ⟨⟨i, env, input, reply⟩, called, guarded⟩ := Option.bind_eq_some_iff.mp moved
    simp only at guarded
    split at guarded
    · rename_i idle
      obtain ⟨c, stepped, rfl⟩ := Option.map_eq_some_iff.mp guarded
      refine raft l i env input reply c rfl called idle stepped ?_
      obtain ⟨i', env', input', reply', called', -, made⟩ := step_call stepped
      rw [called] at called'
      cases called'
      exact made
    · cases guarded
  | play i =>
    rw [step] at moved
    split at moved
    · rename_i up
      exact acts w i .play w' rfl up start (by intros; simp) moved
    · cases moved
  | publish i =>
    rw [step] at moved
    split at moved
    · rename_i idle
      exact acts w i .publish w' rfl idle.1 start (by intros; simp) moved
    · cases moved
  | exec i core =>
    rw [step] at moved
    split at moved
    · rename_i up
      exact acts w i (.exec core) w' rfl up start (by intros; simp) moved
    · cases moved
  | accept i rpc junk =>
    rw [step] at moved
    split at moved
    · rename_i accepts
      obtain ⟨v, published, entered⟩ := Option.bind_eq_some_iff.mp moved
      obtain ⟨r, -, rfl⟩ := Option.map_eq_some_iff.mp published
      have first := acts w i .publish _ rfl accepts.1.1 start (by intros; simp) published
      exact acts (w.put i r) i (.direct rpc junk) w' rfl accepts.1.1 first (by intros; simp) entered
    · cases moved

/-- An act that does not call the server changes one replica, and not its server. -/
theorem act_spec {w w' : Site n π} {i : Fin n} {a : Act (Fin n) π}
    (local_ : ∀ env input, a ≠ .call env input) (moved : w.act i a = some w') :
    w'.cluster = w.cluster ∧ (w.replica i).step a = some (w'.replica i) ∧
      ∀ j, j ≠ i → w'.replica j = w.replica j := by
  obtain ⟨r, stepped, rfl⟩ := Option.map_eq_some_iff.mp moved
  have same : r.srv = w.cluster.srv i := by
    cases a with
    | call env input => exact (local_ env input rfl).elim
    | play =>
      obtain ⟨c, -, rfl⟩ := Option.map_eq_some_iff.mp stepped
      rfl
    | publish => cases stepped; rfl
    | exec core =>
      obtain ⟨p, -, rfl⟩ := Option.map_eq_some_iff.mp stepped
      rfl
    | direct rpc junk =>
      rw [Replica.step] at stepped
      split at stepped
      · cases stepped; rfl
      · cases stepped
  refine ⟨rfl, ?_, fun j other => ?_⟩
  · have back : (w.put i r).replica i = r := by
      simp only [replica, put, Function.update_self, ← same]
    rw [back, stepped]
  · simp only [replica, put, Function.update_of_ne other]

end Site

/-! ## The site against the history -/

/-- The cluster in its place in the history, and every running replica's executors with their
server. -/
structure Sound (w : Site n π) (g : History n (List (Rpc π))) : Prop where
  sim : Sim .safe w.cluster g
  inStep : ∀ i, w.cluster.up i = true → InStep (w.replica i)

variable {c : Cluster n (List (Rpc π))} {i reply : Fin n} {env : Env (List (Rpc π))}
  {input : Input (Fin n) (List (Rpc π))}

/-- How a call leaves a server that is still running. -/
theorem call_running (up : (c.call i env input reply).up i = true) :
    (c.srv i).step (env, input) = some ((c.call i env input reply).srv i) := by
  unfold Server.step
  cases ran : (c.srv i).handle env input with
  | ok p =>
    rw [call_ok ran]
    simp
  | error f =>
    rw [call_error ran] at up
    simp at up

theorem call_others (c : Cluster n (List (Rpc π))) {j : Fin n} (env : Env (List (Rpc π)))
    (input : Input (Fin n) (List (Rpc π))) (reply : Fin n) (other : j ≠ i) :
    (c.call i env input reply).srv j = c.srv j ∧ (c.call i env input reply).up j = c.up j := by
  cases ran : (c.srv i).handle env input with
  | ok p =>
    rw [call_ok ran]
    exact ⟨Function.update_of_ne other _ _, rfl⟩
  | error f =>
    rw [call_error ran]
    exact ⟨Function.update_of_ne other _ _, Function.update_of_ne other _ _⟩

/-- A server that runs after a call ran before it. -/
theorem call_up {j : Fin n} (running : c.up i = true)
    (up : (c.call i env input reply).up j = true) : c.up j = true := by
  by_cases here : j = i
  · rw [here, running]
  · rw [← (call_others c env input reply here).2, up]

variable {w w' : Site n π} {g : History n (List (Rpc π))} {m : Move n π}

theorem sound_step (two : 2 ≤ n) (sound : Sound w g) (orderly : w.Orderly m)
    (moved : w.step m = some w') : ∃ g', g.Le g' ∧ Sound w' g' := by
  refine Site.step_keeps (I := fun v => ∃ g', g.Le g' ∧ Sound v g') moved ⟨g, .refl g, sound⟩ ?_ ?_
  · rintro l i env input reply c rfl called idle stepped rfl
    have meets : w.cluster.Meets Level.safe.Admits l :=
      Cluster.Meets.mono (fun s ae orderly => orderly.admits _) orderly
    obtain ⟨g', le, sim⟩ := sound.sim.step two meets stepped
    refine ⟨g', le, sim, fun j up => ?_⟩
    by_cases here : j = i
    · subst here
      have stepped : (w.replica j).step (.call env input) =
          some (Site.replica { w with cluster := w.cluster.call j env input reply } j) := by
        refine (if_pos idle.2).trans ?_
        change ((w.cluster.srv j).step (env, input)).map _ = _
        rw [call_running up]
        rfl
      exact inStep_step (sound.inStep j idle.1) stepped
    · obtain ⟨srv, same⟩ := call_others w.cluster env input reply here
      have kept := sound.inStep j (same ▸ up)
      simpa only [Site.replica, srv] using kept
  · rintro v i a v' same up ⟨g', le, kept⟩ local_ acted
    obtain ⟨cluster, stepped, others⟩ := Site.act_spec local_ acted
    refine ⟨g', le, cluster ▸ kept.sim, fun j running => ?_⟩
    rw [cluster] at running
    by_cases here : j = i
    · subst here
      exact inStep_step (kept.inStep j running) stepped
    · rw [others j here]
      exact kept.inStep j running

theorem sound_run (two : 2 ≤ n) (sound : Sound w g) (run : Path Site.step Site.Orderly w w') :
    ∃ g', g.Le g' ∧ Sound w' g' := by
  refine run.keeps (I := fun v => ∃ g', g.Le g' ∧ Sound v g') ⟨g, .refl g, sound⟩ ?_
  rintro v m v' ⟨g', le, kept⟩ orderly moved
  obtain ⟨g'', le', kept'⟩ := sound_step two kept orderly moved
  exact ⟨g'', le.trans le', kept'⟩

theorem sound_initial (cfg : Fin n → Config) (target : ∀ i, 1 ≤ (cfg i).logTarget) :
    Sound (Site.initial cfg : Site n π) History.start :=
  ⟨sim_initial cfg target, fun i _ =>
    inStep_run (boot_fresh i n (List.finRange n) (target i)) rfl rfl
      (Theory.Path.refl : Theory.Path Replica.step anyStep _ _)⟩

/-! ## What a leader keeps -/

/-- The packets of the log positions below `m` do not change while nothing is popped there. -/
theorem play_slots {ι : Type} {x : Exec π} {isLeader : Bool} {c : Callback ι (List (Rpc π))}
    {m i k : Nat} (above : ∀ ety idx, c = .logPop ety idx → (m : Int) ≤ idx) (low : i < m)
    (slot : x.slots[i]? = some k) : (x.play isLeader c).slots[i]? = some k := by
  cases c with
  | logOffer e idx => exact getElem?_append_of_some slot
  | logPop e idx =>
    have high := above e idx rfl
    unfold Exec.play Exec.logentryPop
    simp only
    split
    · rw [List.getElem?_take_of_lt (by omega), slot]
    · exact slot
  | applylog e idx =>
    unfold Exec.play Exec.applylog
    simp only
    split <;> exact slot
  | _ => exact slot

/-- Replica `q` holds `old` at the start of its log, in packets older than `pkt`, and has no pop of
it before it. -/
structure Held (w : Site n π) (q : Fin n) (old : List (LogEntry (Fin n) π)) (pkt : Nat) : Prop where
  log : old <+: (w.cluster.srv q).log.entries
  slots : ∀ i < old.length, ∃ k < pkt, (w.exec q).slots[i]? = some k
  pops : ∀ ety idx, .logPop ety idx ∈ (w.cluster.srv q).calls.drop (w.played q) →
    (old.length : Int) ≤ idx

variable {q : Fin n} {old : List (LogEntry (Fin n) π)} {pkt : Nat}

theorem held_act {v v' : Site n π} {a : Act (Fin n) π} (held : Held v q old pkt)
    (local_ : ∀ env input, a ≠ .call env input) (acted : v.act i a = some v') :
    Held v' q old pkt := by
  obtain ⟨cluster, stepped, others⟩ := Site.act_spec local_ acted
  by_cases here : q = i
  · subst here
    have kept (same : (v'.exec q).slots = (v.exec q).slots)
        (played : v'.played q = v.played q) : Held v' q old pkt := by
      refine ⟨by rw [cluster]; exact held.log, ?_, by rw [cluster, played]; exact held.pops⟩
      rw [same]
      exact held.slots
    cases a with
    | call env input => exact (local_ env input rfl).elim
    | play =>
      obtain ⟨c, next, made⟩ := Option.map_eq_some_iff.mp stepped
      obtain ⟨-, exec, played⟩ := Replica.mk.inj made
      simp only [Site.replica] at next
      have split : (v.cluster.srv q).calls.drop (v.played q) =
          c :: (v.cluster.srv q).calls.drop (v.played q + 1) := by
        obtain ⟨bound, rfl⟩ := List.getElem?_eq_some_iff.mp next
        exact List.drop_eq_getElem_cons bound
      refine ⟨by rw [cluster]; exact held.log, fun i low => ?_, fun ety idx member => ?_⟩
      · obtain ⟨k, early, slot⟩ := held.slots i low
        refine ⟨k, early, ?_⟩
        rw [← exec]
        refine play_slots (m := old.length) (fun ety idx same => held.pops ety idx ?_) low slot
        rw [split, same]
        exact List.mem_cons_self
      · rw [cluster, ← played] at member
        exact held.pops ety idx (split ▸ List.mem_cons_of_mem c member)
    | publish =>
      obtain ⟨-, exec, played⟩ := Replica.mk.inj (Option.some.inj stepped)
      exact kept (by rw [← exec]; rfl) played.symm
    | exec core =>
      obtain ⟨⟨x, sent⟩, turned, made⟩ := Option.map_eq_some_iff.mp stepped
      obtain ⟨-, exec, played⟩ := Replica.mk.inj made
      obtain ⟨item, turn⟩ := Exec.step_turn turned
      obtain ⟨core, same⟩ := turn.others
      exact kept (by rw [← exec, same]; rfl) played.symm
    | direct rpc junk =>
      rw [Replica.step] at stepped
      split at stepped
      · obtain ⟨-, exec, played⟩ := Replica.mk.inj (Option.some.inj stepped)
        exact kept (by rw [← exec]; rfl) played.symm
      · cases stepped
  · have same := others q here
    simp only [Site.replica, Replica.mk.injEq] at same
    obtain ⟨srv, exec, played⟩ := same
    refine ⟨by rw [srv]; exact held.log, ?_, by rw [srv, played]; exact held.pops⟩
    rw [exec]
    exact held.slots

/-- What lies in a committed cut of a term the server has reached is not popped. -/
theorem popsAbove_covered {s s' : Server (Fin n) (List (Rpc π))} (good : Good .safe g q s)
    (vouched : ∀ source ae, input = .recv source (.appendentries ae) →
      PacketSim .safe g ⟨source, q, .appendentries ae⟩ ∧ Level.safe.Admits s ae)
    (covered : Covered g s.currentTerm old) (log : old <+: s.log.entries)
    (taken : s.step (env, input) = some s') : PopsAbove old.length s s' := by
  by_cases message : ∃ source ae, input = .recv source (.appendentries ae)
  · obtain ⟨source, ae, rfl⟩ := message
    obtain ⟨packet, admits⟩ := vouched source ae rfl
    have reached : Server.after ((s.raftRecvAppendentries source ae).map Prod.fst) = s' := by
      unfold Server.step Server.handle Server.handleIncoming at taken
      simp only at taken
      cases ran : s.raftRecvAppendentries source ae with
      | ok p =>
        rw [ran] at taken
        exact Option.some.inj taken
      | error f =>
        rw [ran] at taken
        cases taken
    rw [← reached]
    refine recvAppendentries_popsAbove (show Level.safe.keeps from trivial) good packet admits fun h le rc k above kept => ?_
    have later : s.currentTerm ≤ ae.term := by
      have grows := le.cur q
      rwa [good.server.cur, rc.good.server.cur, rc.term] at grows
    have chain : old <+: h.chain ae.term := by
      rcases covered.mono good.matched le later with rfl | ⟨u, m, early, committed, pre⟩
      · exact List.nil_prefix
      · exact pre.trans ((rc.good.safe trivial).committed_starts committed early (rc.term ▸ rc.led))
    have short := (kept old.length (by rw [take_length_eq chain]; exact log)).length_le
    rw [take_length_eq chain, List.length_take] at short
    omega
  · exact popsAbove_step (fun source ae same => message ⟨source, ae, same⟩) taken

/-- An appendentries that is delivered was sent, and the run admits it. -/
theorem delivered_vouched (sim : Sim .safe c g) {l : Label n (List (Rpc π))} {source : Fin n}
    {ae : MsgAppendentries (Fin n) (List (Rpc π))}
    (called : c.callOf l = some (i, env, .recv source (.appendentries ae), reply))
    (meets : c.Meets Orderly l) :
    PacketSim .safe g ⟨source, i, .appendentries ae⟩ ∧ Level.safe.Admits (c.srv i) ae := by
  cases l with
  | deliver k env' =>
    obtain ⟨⟨src, dst, msg⟩, sent, same⟩ := Option.map_eq_some_iff.mp called
    simp only [Prod.mk.injEq, Input.recv.injEq] at same
    obtain ⟨rfl, -, ⟨rfl, rfl⟩, -⟩ := same
    exact ⟨sim.packet _ (List.mem_of_getElem? sent), (meets _ sent).admits _⟩
  | periodic => cases called
  | recvEntry => cases called
  | recvEntryBatch => cases called
  | checkpoint => cases called

/-- As long as replica `q` runs, it holds `old`, which is committed. -/
def Keeps (w : Site n π) (g : History n (List (Rpc π))) (q : Fin n)
    (old : List (LogEntry (Fin n) π)) (pkt : Nat) : Prop :=
  w.cluster.up q = true → Covered g (w.cluster.srv q).currentTerm old ∧ Held w q old pkt

theorem keeps_step (two : 2 ≤ n) (sound : Sound w g) (keeps : Keeps w g q old pkt)
    (orderly : w.Orderly m) (moved : w.step m = some w') :
    ∃ g', Sound w' g' ∧ Keeps w' g' q old pkt := by
  obtain ⟨g', le, sound'⟩ := sound_step two sound orderly moved
  refine ⟨g', sound', fun up' => ?_⟩
  have both : w'.cluster.up q = true → w.cluster.up q = true ∧ Held w' q old pkt := by
    refine Site.step_keeps
      (I := fun v => v.cluster.up q = true → w.cluster.up q = true ∧ Held v q old pkt) moved
      (fun up => ⟨up, (keeps up).2⟩) ?_ ?_
    · rintro l i env input reply c rfl called idle stepped rfl up
      have before := call_up idle.1 up
      refine ⟨before, ?_⟩
      obtain ⟨covered, held⟩ := keeps before
      by_cases here : q = i
      · subst here
        have taken := call_running up
        have pops := popsAbove_covered (sound.sim.good before) ?_ covered held.log taken
        · obtain ⟨cs, calls, run⟩ := tells_step (sound.sim.server q before).chain taken
          have above : ∀ ety idx, .logPop ety idx ∈ cs → (old.length : Int) ≤ idx := by
            intro ety idx member
            exact pops.new ((newCalls_of_append calls).symm ▸ member)
          obtain ⟨-, same⟩ := run.keeps_start above held.log.length_le
          refine ⟨?_, held.slots, ?_⟩
          · rw [← take_length_eq held.log]
            simp only [Server.journal] at same
            simp only [← same]
            exact List.take_prefix _ _
          · simp only [calls, idle.2, List.drop_left]
            exact above
        · rintro source ae rfl
          exact delivered_vouched sound.sim called orderly
      · obtain ⟨srv, -⟩ := call_others w.cluster env input reply here
        exact ⟨by simp only [srv]; exact held.log, held.slots, by simp only [srv]; exact held.pops⟩
    · rintro v i a v' same up kept local_ acted running
      obtain ⟨cluster, -, -⟩ := Site.act_spec local_ acted
      obtain ⟨before, held⟩ := kept (cluster ▸ running)
      exact ⟨before, held_act held local_ acted⟩
  obtain ⟨up, held⟩ := both up'
  refine ⟨(keeps up).1.mono sound.sim.matched le ?_, held⟩
  have grows := le.cur q
  rwa [(sound.sim.server q up).cur, (sound'.sim.server q up').cur] at grows

theorem keeps_run (two : 2 ≤ n) (sound : Sound w g) (keeps : Keeps w g q old pkt)
    (run : Path Site.step Site.Orderly w w') : ∃ g', Sound w' g' ∧ Keeps w' g' q old pkt :=
  run.keeps (I := fun v => ∃ g', Sound v g' ∧ Keeps v g' q old pkt) ⟨g, sound, keeps⟩
    fun _ _ _ ⟨_, sound, keeps⟩ orderly moved => keeps_step two sound keeps orderly moved

/-! ## Reads -/

/-- What a replica has run it never takes back. -/
theorem ran_step (moved : w.step m = some w') (q : Fin n) (c : Nat) :
    ((w.exec q).cores c).ran <+: ((w'.exec q).cores c).ran := by
  refine Site.step_keeps
    (I := fun v => ((w.exec q).cores c).ran <+: ((v.exec q).cores c).ran) moved List.prefix_rfl
    (fun _ _ _ _ _ _ _ _ _ _ _ => List.prefix_rfl) ?_
  intro v i a v' same up kept local_ acted
  refine kept.trans ?_
  obtain ⟨-, stepped, others⟩ := Site.act_spec local_ acted
  by_cases here : q = i
  · subst here
    exact ran_grows stepped c
  · have same := others q here
    simp only [Site.replica, Replica.mk.injEq] at same
    rw [same.2.1]

theorem ran_run (run : Path Site.step Site.Orderly w w') (q : Fin n) (c : Nat) :
    ((w.exec q).cores c).ran <+: ((w'.exec q).cores c).ran :=
  run.keeps (I := fun v => ((w.exec q).cores c).ran <+: ((v.exec q).cores c).ran) List.prefix_rfl
    fun _ _ _ kept _ moved => kept.trans (ran_step moved q c)

/-- Replica `i` takes `item` from the ring of core `c` and sends `RPC_REP_OK` for it. -/
def Site.Answers (w : Site n π) (i : Fin n) (c : Nat) (item : Item π) (w' : Site n π) : Prop :=
  ((w.exec i).cores c).ring.head? = some item ∧
    ((w.exec i).step c).any (·.2) = true ∧ w.step (.exec i c) = some w'

variable {item : Item π}

/-- An answered update was run. -/
theorem Site.Answers.ran {c : Nat} (answers : w.Answers i c item w') :
    w.cluster.up i = true ∧ w'.cluster = w.cluster ∧
      (item.rpc.isUpdate = true → ∃ idx, (idx, item.rpc) ∈ ((w'.exec i).cores c).ran) := by
  obtain ⟨head, replied, moved⟩ := answers
  rw [Site.step] at moved
  split at moved
  · rename_i up
    obtain ⟨cluster, stepped, -⟩ := Site.act_spec (by intros; simp) moved
    refine ⟨up, cluster, fun update => ?_⟩
    obtain ⟨⟨x, sent⟩, taken, made⟩ := Option.map_eq_some_iff.mp stepped
    obtain ⟨-, exec, -⟩ := Replica.mk.inj made
    simp only [Site.replica] at taken
    rw [taken] at replied
    obtain ⟨item', turn⟩ := Exec.step_turn taken
    rw [turn.took] at head
    cases head
    obtain ⟨⟨idx, rpc⟩, worth⟩ := Option.isSome_iff_exists.mp (turn.answer replied update)
    have same : rpc = item.rpc := by
      obtain ⟨wal, -, counted⟩ := Option.bind_eq_some_iff.mp worth
      split at counted
      · cases counted; rfl
      · cases counted
    refine ⟨idx, ?_⟩
    rw [← exec]
    simp only
    rw [turn.ran, worth, same]
    simp
  · cases moved

/-- What a running replica has run lies in committed entries of its log. -/
theorem ran_committed (sound : Sound w g) {p : Fin n} (up : w.cluster.up p = true) (c : Nat) :
    ∃ old : List (LogEntry (Fin n) π), Covered g (w.cluster.srv p).currentTerm old ∧
      ((w.exec p).cores c).ran <+: (indexed old).flatMap (updatesOf c) := by
  obtain ⟨chain, cs, later, j, given, taken, calls, count, told, tells, serves⟩ := sound.inStep p up
  obtain ⟨inside, applied⟩ := told.appliedOf_eq
  obtain ⟨-, whole⟩ := (told.trans tells).appliedOf_eq
  rw [appliedOf_append, applied] at whole
  refine ⟨j.entries.take j.applied, ?_, serves.ran_prefix inside c⟩
  have server := sound.sim.server p up
  have low := server.chain.applied_le
  have reached : j.entries.take j.applied <+:
      (w.cluster.srv p).log.entries.take (w.cluster.srv p).lastAppliedIdx.toNat :=
    prefix_of_indexed ⟨_, whole⟩
  refine (server.commits trivial).starts (reached.trans (List.take_prefix_take_left ?_))
  omega

/-- A leader that accepts a read holds what was committed up to its term. -/
theorem accepts_held (two : 2 ≤ n) (sound : Sound w g) {r : Rpc π} (accepts : w.Accepts q r)
    (covered : Covered g r.quorumTerm old) :
    Covered g (w.cluster.srv q).currentTerm old ∧ Held w q old (w.exec q).wals.length := by
  obtain ⟨⟨up, idle⟩, -, term, leads⟩ := accepts
  have server := sound.sim.server q up
  have leader : (w.cluster.srv q).state = .leader := by
    have either := of_decide_eq_true leads
    rw [server.replicas] at either
    exact either.resolve_left (by omega)
  obtain ⟨led, log, -⟩ := server.leads leader
  rw [term] at covered
  have held : old <+: (w.cluster.srv q).log.entries := by
    rw [log]
    rcases covered with rfl | ⟨u, m, early, committed, pre⟩
    · exact List.nil_prefix
    · exact pre.trans ((sound.sim.safe trivial).committed_starts committed early (by rw [led]; rfl))
  refine ⟨covered, held, fun i low => ?_, ?_⟩
  · obtain ⟨-, cs, later, j, given, taken, calls, count, told, tells, serves⟩ := sound.inStep q up
    have nothing : later = [] := by
      have total := congrArg List.length calls
      simp only [Site.replica, List.length_append] at total count
      exact List.length_eq_zero_iff.mp (by omega)
    rw [nothing] at tells
    have positions := serves.positions
    rw [tells.of_nil] at positions
    have inside : i < (w.exec q).slots.length := by
      have long := held.length_le
      simp only [Site.replica, Server.journal] at positions
      omega
    exact ⟨_, serves.known _ (List.getElem_mem inside), List.getElem?_eq_getElem inside⟩
  · rw [idle, List.drop_length]
    simp

/-- A core that comes to a read has run every update of the entries its replica held when it
accepted the read. -/
theorem read_sees_held (sound : Sound w g) (up : w.cluster.up q = true)
    (held : Held w q old item.pkt) {c : Nat} (head : ((w.exec q).cores c).ring.head? = some item) :
    (indexed old).flatMap (updatesOf c) <+: ((w.exec q).cores c).ran := by
  obtain ⟨-, cs, later, j, given, taken, calls, count, told, tells, serves⟩ := sound.inStep q up
  obtain ⟨rest, ring⟩ := List.head?_eq_some_iff.mp head
  have unplayed : (w.cluster.srv q).calls.drop (w.played q) = later := by
    simp only [Site.replica] at calls count
    rw [calls, ← count, List.drop_left]
  have long : old.length ≤ j.entries.length := by
    rw [← serves.positions]
    by_contra short
    obtain ⟨k, -, slot⟩ := held.slots (w.exec q).slots.length (by simpa [Site.replica] using short)
    exact absurd (List.getElem?_eq_some_iff.mp slot).1 (Nat.lt_irrefl _)
  obtain ⟨-, same⟩ := tells.keeps_start (unplayed ▸ held.pops) long
  have pre : old <+: j.entries := by
    rw [← take_length_eq held.log]
    simp only [Site.replica, Server.journal] at same
    rw [same]
    exact List.take_prefix _ _
  exact serves.ran_before told.appliedOf_eq.1 ring pre held.slots

/-- **A read sees what was answered before it, from its own term or an earlier one.**  In an orderly
run: replica `p` answers an update, replica `q` later accepts a read for the same core in a term not
older than `p` was in then, and answers it.  Everything `p` had run on that core, the update
included, `q` had run on it before the read. -/
theorem read_after_reply (cfg : Fin n → Config) (target : ∀ i, 1 ≤ (cfg i).logTarget)
    {w₁ w₁' w₂ w₂' w₃ w₃' : Site n π} {p q : Fin n} {u : Item π} {r : Rpc π} {junk : Wal}
    (run : Path Site.step Site.Orderly (Site.initial cfg) w₁)
    (replied : w₁.Answers p r.core u w₁') (update : u.rpc.isUpdate = true)
    (between : Path Site.step Site.Orderly w₁' w₂)
    (accepted : w₂.step (.accept q r junk) = some w₂')
    (current : (w₁.cluster.srv p).currentTerm ≤ r.quorumTerm)
    (onward : Path Site.step Site.Orderly w₂' w₃)
    (answered : w₃.Answers q r.core ⟨(w₂.exec q).wals.length, r⟩ w₃') :
    ((w₁'.exec p).cores r.core).ran <+: ((w₃.exec q).cores r.core).ran ∧
      ∃ idx, (idx, u.rpc) ∈ ((w₃.exec q).cores r.core).ran := by
  obtain ⟨upP, cluster, executed⟩ := replied.ran
  have first : w₁.step (.exec p r.core) = some w₁' := replied.2.2
  have afterward : Path Site.step Site.Orderly w₂ w₃ := (Path.tail .refl trivial accepted).trans onward
  have sees : ((w₁'.exec p).cores r.core).ran <+: ((w₃.exec q).cores r.core).ran := by
    by_cases two : 2 ≤ n
    · obtain ⟨g₀, -, sound₀⟩ := sound_run two (sound_initial cfg target) run
      obtain ⟨g₁, -, sound₁⟩ := sound_step two sound₀ (m := .exec p r.core) trivial first
      obtain ⟨g₂, le, sound₂⟩ := sound_run two sound₁ between
      obtain ⟨old, covered, ran⟩ := ran_committed sound₁ (cluster ▸ upP) r.core
      have accepts : w₂.Accepts q r := by
        by_contra refused
        rw [Site.step, if_neg refused] at accepted
        cases accepted
      have reached := covered.mono sound₁.sim.matched le (cluster ▸ current)
      obtain ⟨g₃, sound₃, keeps⟩ := keeps_run two sound₂
        (fun _ => accepts_held two sound₂ accepts reached) afterward
      have up := answered.ran.1
      exact ran.trans (read_sees_held sound₃ up (keeps up).2 answered.1)
    · obtain rfl : p = q := by
        have := p.isLt
        have := q.isLt
        exact Fin.ext (by omega)
      exact (ran_run between p r.core).trans (ran_run afterward p r.core)
  obtain ⟨idx, ran⟩ := executed update
  exact ⟨sees, idx, sees.subset ran⟩

/-! ## Two leaders -/

/-- A step of the cluster, and the `k` callbacks it leaves replica `i` to play. -/
def Move.calls (l : Label n (List (Rpc π))) (i : Fin n) (k : Nat) : List (Move n π) :=
  .raft l :: List.replicate k (.play i)

/-- What a new leader appends first. -/
def kickerRpc : Rpc Nat := ⟨.kicker, false, 0, 0, 0⟩

def updateRpc (quorumTerm : Int) : Rpc Nat := ⟨.req, false, 0, quorumTerm, 7⟩

def readRpc (quorumTerm : Int) : Rpc Nat := ⟨.req, true, 0, quorumTerm, 0⟩

/-- What was left in the buffer of a read. -/
def leftover : Wal := ⟨.unknown, 0, 0, true⟩

/-- Server 0 leads term 1 and commits its kicker.  Server 1 takes over with the vote of server 2, of
which server 0 hears nothing, and commits a kicker and an update, which its executor
comes to. -/
def takeover : List (Move 3 Nat) :=
  Move.calls (.periodic 0 (wideEnv []) 1000) 0 4 ++ Move.calls (.deliver 0 (wideEnv [])) 1 2 ++
  Move.calls (.deliver 2 (wideEnv [])) 0 2 ++ [.publish 0] ++
  Move.calls (.recvEntryBatch 0 (wideEnv []) [(0, [kickerRpc])]) 0 3 ++
  Move.calls (.deliver 5 (wideEnv [])) 1 1 ++ Move.calls (.deliver 6 (wideEnv [])) 2 2 ++
  Move.calls (.deliver 7 (wideEnv [])) 0 1 ++ [.exec 0 0] ++
  Move.calls (.periodic 1 (wideEnv []) 1000) 1 4 ++ Move.calls (.deliver 10 (wideEnv [])) 2 2 ++
  Move.calls (.deliver 11 (wideEnv [])) 1 2 ++ [.publish 1] ++
  Move.calls (.recvEntryBatch 1 (wideEnv []) [(0, [kickerRpc])]) 1 3 ++
  Move.calls (.recvEntryBatch 1 (wideEnv []) [(0, [updateRpc 2])]) 1 3 ++
  Move.calls (.deliver 15 (wideEnv [])) 2 1 ++ Move.calls (.deliver 17 (wideEnv [])) 2 1 ++
  Move.calls (.deliver 18 (wideEnv [])) 1 2 ++ Move.calls (.deliver 19 (wideEnv [])) 1 1 ++
  [.exec 1 0, .exec 1 0]

/-- Server 2 takes over in term 3. -/
def succession : List (Move 3 Nat) :=
  Move.calls (.periodic 2 (wideEnv []) 1000) 2 4 ++ Move.calls (.deliver 21 (wideEnv [])) 1 2 ++
  Move.calls (.deliver 22 (wideEnv [])) 2 2 ++ [.publish 2] ++
  Move.calls (.recvEntryBatch 2 (wideEnv []) [(0, [kickerRpc])]) 2 3

/-- It commits its kicker, and its executor runs what stands before the read. -/
def settlement : List (Move 3 Nat) :=
  Move.calls (.deliver 26 (wideEnv [])) 1 1 ++ Move.calls (.deliver 27 (wideEnv [])) 2 4 ++
  [.exec 2 0, .exec 2 0, .exec 2 0, .exec 2 0]

/-- A reply of server 1 in term 2 and a later read at server 2 in term 3. -/
theorem read_after_reply_succession : ∃ (w₁ w₁' w₃ : Site 3 Nat) (u : Item Nat),
    u.rpc = updateRpc 2 ∧ (w₁.cluster.srv 1).currentTerm = 2 ∧
      (w₃.cluster.srv 2).currentTerm = 3 ∧
    (((w₁'.exec 1).cores 0).ran <+: ((w₃.exec 2).cores 0).ran ∧
      ∃ idx, (idx, u.rpc) ∈ ((w₃.exec 2).cores 0).ran) := by
  have ran : ∃ w₁ ∈ exec Site.step Site.Orderly (Site.initial fun _ => smallCfg) takeover,
      ((w₁.exec 1).cores 0).ring.head? = some ⟨2, updateRpc 2⟩ ∧
        ((w₁.exec 1).step 0).any (·.2) = true ∧ (w₁.cluster.srv 1).currentTerm = 2 ∧
        ∃ w₁' ∈ w₁.step (.exec 1 0), ∃ w₂ ∈ exec Site.step Site.Orderly w₁' succession,
          ∃ w₂' ∈ w₂.step (.accept 2 (readRpc 3) leftover),
            ∃ w₃ ∈ exec Site.step Site.Orderly w₂' settlement,
              ((w₃.exec 2).cores 0).ring.head? = some ⟨(w₂.exec 2).wals.length, readRpc 3⟩ ∧
              ((w₃.exec 2).step 0).any (·.2) = true ∧ (w₃.step (.exec 2 0)).isSome = true ∧
              (w₃.cluster.srv 2).currentTerm = 3 := by
    set_option synthInstance.maxSize 512 in decide +kernel
  obtain ⟨w₁, run, head, replied, term, w₁', first, rest⟩ := Path.exists_of_exec ran
  obtain ⟨w₂, between, w₂', accepted, rest⟩ := Path.exists_of_exec rest
  obtain ⟨w₃, onward, head', replied', moved, term'⟩ := Path.exists_of_exec rest
  obtain ⟨w₃', moved⟩ := Option.isSome_iff_exists.mp moved
  have sees := read_after_reply (fun _ => smallCfg) (fun _ => le_refl 1) run
    (r := readRpc 3) ⟨head, replied, first⟩ rfl between accepted (by rw [term]; decide) onward
    ⟨head', replied', moved⟩
  exact ⟨w₁, w₁', w₃, _, rfl, term, term', sees⟩

/-- Server 1 has answered the update; server 0, still the leader of term 1 to itself, accepts and
answers a read of term 1 without it. -/
theorem read_after_reply_stale : ∃ (w₁ w₁' w₂' w₃' : Site 3 Nat) (u : Item Nat) (r : Rpc Nat),
    Path Site.step Site.Orderly (Site.initial fun _ => smallCfg) w₁ ∧
    w₁.Answers 1 r.core u w₁' ∧ u.rpc.isUpdate = true ∧
    w₁'.step (.accept 0 r leftover) = some w₂' ∧
    w₂'.Answers 0 r.core ⟨(w₁'.exec 0).wals.length, r⟩ w₃' ∧
    ((w₁'.exec 1).cores r.core).ran ≠ [] ∧ ((w₂'.exec 0).cores r.core).ran = [] := by
  have ran : ∃ w₁ ∈ exec Site.step Site.Orderly (Site.initial fun _ => smallCfg) takeover,
      ((w₁.exec 1).cores 0).ring.head? = some ⟨2, updateRpc 2⟩ ∧
        ((w₁.exec 1).step 0).any (·.2) = true ∧
        ∃ w₁' ∈ w₁.step (.exec 1 0), ((w₁'.exec 1).cores 0).ran ≠ [] ∧
          ∃ w₂' ∈ w₁'.step (.accept 0 (readRpc 1) leftover),
            ((w₂'.exec 0).cores 0).ring.head? = some ⟨(w₁'.exec 0).wals.length, readRpc 1⟩ ∧
            ((w₂'.exec 0).step 0).any (·.2) = true ∧ (w₂'.step (.exec 0 0)).isSome = true ∧
            ((w₂'.exec 0).cores 0).ran = [] := by
    decide +kernel
  obtain ⟨w₁, run, head, replied, w₁', first, some_, w₂', accepted, head', replied', moved, none_⟩ :=
    Path.exists_of_exec ran
  obtain ⟨w₃', moved⟩ := Option.isSome_iff_exists.mp moved
  exact ⟨w₁, w₁', w₂', w₃', _, readRpc 1, run, ⟨head, replied, first⟩, rfl, accepted,
    ⟨head', replied', moved⟩, some_, none_⟩

end Cyclone.Core
