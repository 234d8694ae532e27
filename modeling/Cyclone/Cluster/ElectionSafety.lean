/-
# Cluster.ElectionSafety — one leader a term, over crashes and restarts

The invariant of the whole system: sound books, packets that tell the truth about the votes,
running servers in step with the books, and a majority of votes behind every leader,
the crashed ones included.
-/
import Cyclone.Cluster.Ballots

namespace Cyclone

open Cyclone.Raft Cyclone.Theory

set_option autoImplicit false

variable {n : Nat} {α : Type}

/-- The system against its books. -/
structure Polled (w : World n α) : Prop where
  sound : Sound w.books
  packets : ∀ p ∈ w.cluster.net, Vouched w.books.votes p
  running : ∀ i, w.cluster.up i = true → Running w.books i (w.cluster.srv i)
  led : 2 ≤ n → ∀ i, (w.cluster.srv i).state = .leader →
    Elected w.books.votes i (w.cluster.srv i).currentTerm

theorem polled_initial (cfg : Fin n → Config) : Polled (World.initial cfg : World n α) := by
  have boot : ∀ i, (World.initial cfg : World n α).cluster.srv i =
      Server.boot i n (cfg i) (List.finRange n) := fun _ => rfl
  refine ⟨⟨?_, ?_, ?_, ?_⟩, ?_, fun i _ => ?_, fun _ i leader => ?_⟩
  · simp [World.initial]
  · simp [World.initial]
  · simp [World.initial]
  · simp [World.initial]
  · simp [World.initial, Cluster.initial]
  · have seated := boot_seated (α := α) i (cfg i)
    rw [boot]
    rw [boot_all] at seated ⊢
    refine
      { seated := seated
        plain := ?_
        term := rfl
        vote := ?_
        toCampaign := .follower rfl }
    · simp [Server.raftNew, logNew]
    · simp [World.initial]
  · rw [boot, boot_all] at leader
    cases leader

/-! ## Steps -/

section Steps

variable {cfg : Fin n → Config} {w w' : World n α} {i : Fin n} {env : Env α}
  {input : Input (Fin n) α} {reply : Fin n}

variable {l : Label n α}

/-- The input of a label is a client's, or a packet that was sent. -/
theorem Polled.vouched (polled : Polled w)
    (called : w.cluster.callOf l = some (i, env, input, reply)) :
    InputVouched w.books.votes i input := by
  cases l with
  | periodic | recvEntry | checkpoint =>
    cases called
    trivial
  | recvEntryBatch j env' es =>
    cases called
    intro e member
    obtain ⟨m, -, rfl⟩ := List.mem_map.mp member
    rfl
  | deliver k env' =>
    obtain ⟨p, sent, same⟩ := Option.map_eq_some_iff.mp called
    cases same
    exact polled.packets p (List.mem_of_getElem? sent)

/-- Who gets the answer to a label's call. -/
theorem callOf_reply {c : Cluster n α} (called : c.callOf l = some (i, env, input, reply))
    {s' : Server (Fin n) α} {answer : Msg (Fin n) α}
    (ran : (c.srv i).handle env input = .ok (s', some answer)) :
    ∃ msg, input = .recv reply msg := by
  cases l with
  | periodic | recvEntry | recvEntryBatch =>
    cases called
    obtain ⟨t, -, same⟩ := ok_of_map ran
    cases same
  | checkpoint =>
    cases called
    cases ran
  | deliver k env' =>
    obtain ⟨p, -, same⟩ := Option.map_eq_some_iff.mp called
    cases same
    exact ⟨_, rfl⟩

variable {b' : Books n} {s' : Server (Fin n) α}

/-- Every leader keeps its majority when a call of server `i` is noted, in full or in part. -/
theorem Polled.led_after (polled : Polled w) (noted : Noted w.books i input (w.cluster.srv i) b' s')
    (made : List (Callback (Fin n) α)) (two : 2 ≤ n) (j : Fin n)
    (leader : (Function.update w.cluster.srv i s' j).state = .leader) :
    Elected (w.books.noteAll i made).votes j (Function.update w.cluster.srv i s' j).currentTerm := by
  have more := w.books.votes_noteAll i made
  by_cases mine : j = i
  · subst mine
    rw [Function.update_self] at leader ⊢
    have elected := noted.running.leads two leader
    rw [noted.led two leader] at elected
    exact elected.mono more
  · rw [Function.update_of_ne mine] at leader ⊢
    exact (polled.led two j leader).mono more

theorem Polled.others (polled : Polled w) (made : List (Callback (Fin n) α)) {j : Fin n}
    (other : j ≠ i) (running : w.cluster.up j = true) :
    Running (w.books.noteAll i made) j (w.cluster.srv j) :=
  (polled.running j running).other other made

/-- A call that is not interrupted. -/
theorem Polled.call (polled : Polled w)
    (called : w.cluster.callOf l = some (i, env, input, reply)) (running : w.cluster.up i = true) :
    Polled ⟨w.cluster.call i env input reply, w.books.noteAll i
      (newCalls (w.cluster.srv i) ((w.cluster.call i env input reply).srv i))⟩ := by
  have vouched := polled.vouched called
  obtain ⟨b', noted⟩ := (polled.running i running).handle polled.sound vouched env
  have srv := call_srv w.cluster i env input reply
  obtain ⟨cs, calls, lawful, written⟩ := noted.calls
  rw [srv, Function.update_self, newCalls_of_append calls]
  have more := w.books.votes_noteAll i cs
  have old : ∀ p ∈ w.cluster.net, Vouched (w.books.noteAll i cs).votes p :=
    fun p member => (polled.packets p member).mono more
  have sent := lawful.packets (w.books.noteAll i cs).votes
  have led := polled.led_after noted cs
  have sound := polled.sound.noteAll lawful
  subst written
  cases ran : (w.cluster.srv i).handle env input with
  | ok p =>
    obtain ⟨s', answer⟩ := p
    rw [ran] at noted calls led
    rw [call_ok ran, newCalls_of_append (show s'.calls = _ from calls)]
    refine ⟨sound, fun p member => ?_, fun j alive => ?_, led⟩
    · rcases List.mem_append.mp member with before | now
      · rcases List.mem_append.mp before with past | new
        · exact old p past
        · exact sent p new
      · cases answer with
        | none => cases now
        | some msg =>
          have only : p = ⟨i, reply, msg⟩ := List.mem_singleton.mp now
          rw [only]
          obtain ⟨msg', rfl⟩ := callOf_reply called ran
          exact noted.answer vouched ran
    · by_cases mine : j = i
      · subst mine
        simp only [Function.update_self]
        exact noted.running
      · simp only [Function.update_of_ne mine]
        exact polled.others cs mine alive
  | error f =>
    rw [ran] at noted calls led
    rw [call_error ran, newCalls_of_append (show f.server.calls = _ from calls)]
    refine ⟨sound, fun p member => ?_, fun j alive => ?_, led⟩
    · rcases List.mem_append.mp member with past | new
      · exact old p past
      · exact sent p new
    · by_cases mine : j = i
      · subst mine
        simp at alive
      · simp only [Function.update_of_ne mine] at alive ⊢
        exact polled.others cs mine alive

/-- A call cut short. -/
theorem Polled.crash (polled : Polled w)
    (called : w.cluster.callOf l = some (i, env, input, reply)) (running : w.cluster.up i = true)
    (k : Nat) {made : List (Callback (Fin n) α)}
    (cut : made = (newCalls (w.cluster.srv i) ((w.cluster.call i env input reply).srv i)).take k) :
    Polled
      { cluster :=
          { srv := (w.cluster.call i env input reply).srv
            up := Function.update w.cluster.up i false
            net := w.cluster.net ++ packetsOf i made }
        books := w.books.noteAll i made } := by
  obtain ⟨b', noted⟩ :=
    (polled.running i running).handle polled.sound (polled.vouched called) env
  have srv := call_srv w.cluster i env input reply
  obtain ⟨cs, calls, lawful, -⟩ := noted.calls
  rw [srv, Function.update_self, newCalls_of_append calls] at cut
  have lawful : Lawful i w.books made := by
    rw [cut]
    exact lawful.take k
  have more := w.books.votes_noteAll i made
  refine ⟨polled.sound.noteAll lawful, fun p member => ?_, fun j alive => ?_, ?_⟩
  · rcases List.mem_append.mp member with past | new
    · exact (polled.packets p past).mono more
    · exact lawful.packets _ p new
  · by_cases mine : j = i
    · subst mine
      simp at alive
    · simp only [Function.update_of_ne mine, srv] at alive ⊢
      exact polled.others made mine alive
  · rw [srv]
    exact polled.led_after noted made

/-- A restart from the cells. -/
theorem Polled.restart (polled : Polled w) (cfg : Config) {entries : List (Entry (Fin n) α)}
    (normal : ∀ e ∈ entries, e.type = .normal) :
    Polled
      { w with
        cluster :=
          { w.cluster with
            srv := Function.update w.cluster.srv i (reboot i cfg (w.books.cells i) entries)
            up := Function.update w.cluster.up i true } } := by
  have seated : Seated i (reboot i cfg (w.books.cells i) entries) :=
    (boot_seated i cfg).of_same rfl rfl
  have follower : (reboot i cfg (w.books.cells i) entries).state = .follower := by
    unfold reboot
    rw [boot_all]
    rfl
  refine ⟨polled.sound, polled.packets, fun j alive => ?_, fun two j leader => ?_⟩
  · by_cases mine : j = i
    · subst mine
      simp only [Function.update_self]
      refine
        { seated := seated
          plain := normal
          term := rfl
          vote := fun v member voter here => ?_
          toCampaign := .follower follower }
      -- only a vote of the term in the cell binds the restarted server
      have cast := polled.sound.cast v member
      rw [voter] at cast
      exact cast here
    · simp only [Function.update_of_ne mine] at alive ⊢
      exact polled.running j alive
  · by_cases mine : j = i
    · subst mine
      simp only [Function.update_self] at leader
      rw [follower] at leader
      cases leader
    · simp only [Function.update_of_ne mine] at leader ⊢
      exact polled.led two j leader

/-- **A step keeps the books sound, and takes no vote back.** -/
theorem Polled.step (polled : Polled w) {e : Event n α} (taken : w.step cfg e = some w') :
    Polled w' ∧ w.books.votes ⊆ w'.books.votes := by
  cases e with
  | call l =>
    obtain ⟨⟨i, env, input, reply⟩, called, rest⟩ := Option.bind_eq_some_iff.mp taken
    simp only at rest
    split at rest
    · rename_i running
      cases rest
      exact ⟨polled.call called running, w.books.votes_noteAll i _⟩
    · cases rest
  | crash l k =>
    obtain ⟨⟨i, env, input, reply⟩, called, rest⟩ := Option.bind_eq_some_iff.mp taken
    simp only at rest
    split at rest
    · rename_i running
      cases rest
      exact ⟨polled.crash called running k rfl, w.books.votes_noteAll i _⟩
    · cases rest
  | restart i entries =>
    simp only [World.step] at taken
    split at taken
    · rename_i down
      cases taken
      exact ⟨polled.restart (cfg i) down.2, fun _ member => member⟩
    · cases taken

end Steps

/-! ## Runs -/

variable {w : World n α}

theorem polled_run (cfg : Fin n → Config)
    (run : Path (World.step cfg) anyStep (World.initial cfg) w) : Polled w :=
  run.keeps (I := Polled) (polled_initial cfg) fun _ _ _ polled _ taken => (polled.step taken).1

theorem votes_run {cfg : Fin n → Config} {w' : World n α} (polled : Polled w)
    (run : Path (World.step cfg) anyStep w w') : w.books.votes ⊆ w'.books.votes := by
  have kept : Polled w' ∧ w.books.votes ⊆ w'.books.votes :=
    run.keeps (I := fun t => Polled t ∧ w.books.votes ⊆ t.books.votes)
      ⟨polled, fun _ member => member⟩ fun t _ u kept _ taken =>
        ⟨(kept.1.step taken).1, fun _ member => (kept.1.step taken).2 (kept.2 member)⟩
  exact kept.2

/-- **Election safety.**  Along every run with crashes and restarts: no server votes for two
candidates in one term, nor answers two candidates that it did; and a server that leads a term
now and one that leads it then, in the same state or any later one, are the same. -/
theorem election_safety (cfg : Fin n → Config) {w w' : World n α}
    (run : Path (World.step cfg) anyStep (World.initial cfg) w)
    (later : Path (World.step cfg) anyStep w w') :
    (∀ v ∈ w.books.votes, ∀ v' ∈ w.books.votes, v.voter = v'.voter → v.term = v'.term →
        v.candidate = v'.candidate) ∧
      (∀ voter c c' term, ⟨voter, c, .requestvoteResponse ⟨term, true⟩⟩ ∈ w.cluster.net →
        ⟨voter, c', .requestvoteResponse ⟨term, true⟩⟩ ∈ w.cluster.net → c = c') ∧
      ∀ i j, (w.cluster.srv i).state = .leader → (w'.cluster.srv j).state = .leader →
        (w.cluster.srv i).currentTerm = (w'.cluster.srv j).currentTerm → i = j := by
  have polled := polled_run cfg run
  have polled' := polled_run cfg (run.trans later)
  refine ⟨polled.sound.once, fun voter c c' term left right => ?_, fun i j leads leads' term => ?_⟩
  · have voted := polled.packets _ left rfl
    have voted' := polled.packets _ right rfl
    exact Option.some.inj (polled.sound.once _ voted _ voted' rfl rfl)
  · by_contra other
    have two := two_le_of_ne other
    obtain ⟨Q, majority, each⟩ := (polled.led two i leads).mono (votes_run polled later)
    obtain ⟨R, majority', each'⟩ := polled'.led two j leads'
    rw [term] at each
    obtain ⟨k, inQ, inR⟩ := majority.meet majority'
    have same := polled'.sound.once _ (each k inQ) _ (each' k inR) rfl rfl
    exact other (Option.some.inj same)

/-- Server 1 crashes after it persisted the term of a request and before it persisted its vote,
restarts, and votes; server 0 leads term 1, crashes, and restarts. -/
theorem election_safety_restarted : ∃ w w' : World 3 Nat,
    (w.cluster.srv 0).state = .leader ∧ w.books.cells 1 = ⟨1, some 0⟩ ∧
      w'.books.cells 0 = ⟨1, some 0⟩ ∧ w'.cluster.up 0 = true ∧
      ∀ j, (w'.cluster.srv j).state = .leader →
        (w.cluster.srv 0).currentTerm = (w'.cluster.srv j).currentTerm → 0 = j := by
  have run : ∃ w : World 3 Nat,
      w ∈ exec (World.step fun _ => smallCfg) anyStep (World.initial fun _ => smallCfg)
      [.call (.periodic 0 (wideEnv 0) 1000), .crash (.deliver 0 (wideEnv 0)) 1, .restart 1 [],
        .call (.deliver 0 (wideEnv 0)), .call (.deliver 2 (wideEnv 0))] ∧
      (w.cluster.srv 0).state = .leader ∧
        w.books.cells 1 = ⟨1, some 0⟩ ∧
        ∃ w' ∈ exec (World.step fun _ => smallCfg) anyStep w
          [.crash (.periodic 0 (wideEnv 0) 0) 0, .restart 0 []],
          w'.books.cells 0 = ⟨1, some 0⟩ ∧ w'.cluster.up 0 = true := by
    decide +kernel
  obtain ⟨w, path, leader, cell, next⟩ := Path.exists_of_exec run
  obtain ⟨w', later, cell', up⟩ := Path.exists_of_exec next
  exact ⟨w, w', leader, cell, cell', up,
    fun j => (election_safety (fun _ => smallCfg) path later).2.2 0 j leader⟩

end Cyclone
