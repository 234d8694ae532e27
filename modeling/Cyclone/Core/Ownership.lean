/-
# Core.Ownership — who frees a received packet

A packet that `cyclone_rx_burst` returns is freed by the monitor thread that looks at it, or goes into a
log entry, or into a ring: to a core, or back to the quorum when it names several cores (then with
a reference of its own).  `bad` frees some of the packets it rejects, and both of its callers free
every packet it rejects.

`Monitor` is the monitor thread's state: the raft server, whose entries carry the packets of their
chain, the two rings, and the frees and extra references so far.  Received packets and clones are
numbered in order.

* `packets_accounted`: if no packet is rejected for its source, size or segments and no message
  carries more than one entry, then in every state each packet is freed or held, once, not counting
  the references taken for the quorum's ring.
* `rejected_freed_twice`: a packet with a foreign address.
-/
import Cyclone.Raft.Custody
import Cyclone.Core.Executor
import Mathlib.Data.List.Perm.Basic

namespace Cyclone.Core

open Cyclone.Raft
open Cyclone.Theory (Path exec anyStep)

set_option autoImplicit false

/-- Why `bad` rejects a packet. -/
inductive Junk where
  | protocol
  | source
  | short
  | multiSegment
deriving DecidableEq, Repr

/-- How often `bad` frees the packet it rejects. -/
def Junk.frees : Junk → Nat
  | .protocol => 0
  | .source => 1
  | .short => 1
  | .multiSegment => 1

/-- What `accept` reads of a request: `quorumTerm` is the term it compares, `snapshotTerm` the one it
compares for a request from the quorum's ring, and `busy` says that the client has `MAX_INFLIGHT`
requests under way. -/
structure Request (ι : Type) where
  junk : Option Junk
  busy : Bool
  code : RpcCode
  readOnly : Bool
  coreMask : Nat
  quorumTerm : Int
  snapshotTerm : Int
  node : ι
  size : Nat
deriving DecidableEq, Repr

/-- `is_multicore_rpc`. -/
def Request.isMulticore {ι : Type} (r : Request ι) : Bool := r.coreMask &&& (r.coreMask - 1) ≠ 0

/-- A packet of the raft queue; no message when its type is unknown. -/
structure Incoming (ι : Type) where
  junk : Option Junk
  source : ι
  msg : Option (Msg ι (List Nat))
deriving DecidableEq, Repr

/-- `msg_entry_t` under construction: the packets chained in it, and `chain_size`. -/
structure Batch (ι : Type) where
  type : LogType ι
  len : Nat
  chainSize : Nat
  chain : List Nat
deriving DecidableEq, Repr

/-- The state of `cyclone_monitor`. -/
structure Monitor (ι : Type) where
  srv : Server ι (List Nat)
  snapshot : Int
  toCores : List Nat
  toQuorum : List (Nat × Request ι)
  received : Nat
  freed : List Nat
  taken : List Nat

/-- A step: a packet of the raft queue, a burst of requests, the requests of the quorum's ring, the
periodic call, the kicker, the snapshot, or a core that is done with a request. -/
inductive MonitorAct (ι : Type) where
  | raft (env : Env (List Nat)) (p : Incoming ι)
  | accept (env : Env (List Nat)) (burst : List (Request ι))
  | transactions (env : Env (List Nat))
  | periodic (env : Env (List Nat)) (msec : Int)
  | kicker (env : Env (List Nat))
  | publish
  | done (k : Nat)

variable {ι : Type}

/-- The packets a callback frees. -/
def givesBack : Callback ι (List Nat) → List Nat
  | .logPop e _ => e.data
  | .logPoll e => e.data
  | .logPollBatch es _ => es.flatMap (·.data)
  | _ => []

/-- `msg->ae.entries[0].data.buf = m`. -/
def holding (m : Nat) : List (Entry ι (List Nat)) → List (Entry ι (List Nat))
  | [] => []
  | e :: es => { e with data := [m] } :: es

/-- A request that passed the checks goes into the last message or starts one. -/
def enterBatch (messages : List (Batch ι)) (m : Nat) (r : Request ι) : List (Batch ι) :=
  if r.code = .nodeDel then messages ++ [⟨.removeNode r.node, r.size, 0, [m]⟩]
  else if r.code = .nodeAdd then messages ++ [⟨.addNonvotingNode r.node, r.size, 0, [m]⟩]
  else
    let start : Batch ι := ⟨.normal, r.size, if r.isMulticore then 2 else 1, [m]⟩
    match messages.getLast? with
    | none => [start]
    | some last =>
      match last.type with
      | .normal =>
        if last.len + r.size ≤ 8000 ∧ last.chainSize < 32 then
          messages.dropLast ++ [{ last with
            len := last.len + r.size, chainSize := last.chainSize + 1
            chain := last.chain ++ [m] }]
        else messages ++ [start]
      | _ => messages ++ [start]

/-- `rte_pktmbuf_alloc` for the completion of a node's addition is no received packet. -/
def ownPacket (env : Env (List Nat)) : Env (List Nat) := { env with completion := [] }

namespace Monitor

variable [DecidableEq ι]

def free (w : Monitor ι) (m : Nat) : Monitor ι := { w with freed := w.freed ++ [m] }

/-- `bad` and its caller. -/
def reject (w : Monitor ι) (m : Nat) (junk : Junk) : Monitor ι :=
  { w with freed := w.freed ++ List.replicate (junk.frees + 1) m }

/-- The raft server after a call, with what its callbacks freed. -/
def absorb (w : Monitor ι) (srv : Server ι (List Nat)) : Monitor ι :=
  { w with
    srv := srv
    freed := w.freed ++ (srv.calls.drop w.srv.calls.length).flatMap givesBack }

/-- The published snapshot says leader. -/
def leads (w : Monitor ι) : Bool := w.snapshot % 2 = 1

/-- `cyclone_st::handle_incoming`; an unknown message ends the process. -/
def handleIncoming (w : Monitor ι) (env : Env (List Nat)) (m : Nat) (source : ι) :
    Option (Msg ι (List Nat)) → Option (Monitor ι)
  | none => none
  | some (.appendentries ae) =>
    match w.srv.raftRecvAppendentries source { ae with entries := holding m ae.entries } with
    | .error _ => none
    | .ok (srv, r) =>
      if r.success = false ∨ ae.entries = [] then some ((w.absorb srv).free m)
      else some (w.absorb srv)
  | some msg =>
    match w.srv.handleIncoming env source msg with
    | .error _ => none
    | .ok (srv, _) => some ((w.absorb srv).free m)

/-- A packet of the raft queue. -/
def raftPacket (w : Monitor ι) (env : Env (List Nat)) (p : Incoming ι) : Option (Monitor ι) :=
  let m := w.received
  let w := { w with received := w.received + 1 }
  match p.junk with
  | some junk => some (w.reject m junk)
  | none => w.handleIncoming env m p.source p.msg

/-- Into the ring of the first core of the mask; a core that does not exist has none. -/
def toCore (w : Monitor ι) (executorThreads m : Nat) (r : Request ι) : Option (Monitor ι) :=
  if r.coreMask % 2 ^ executorThreads ≠ 0 then some { w with toCores := w.toCores ++ [m] } else none

/-- `cyclone_monitor::accept` on one packet; nothing when the process ends. -/
def acceptOne (executorThreads : Nat) (multicore : Bool) (w : Monitor ι)
    (messages : List (Batch ι)) (m : Nat) (r : Request ι) :
    Option (Monitor ι × List (Batch ι)) :=
  match multicore, r.junk with
  | false, some junk => some (w.reject m junk, messages)
  | _, _ =>
    if multicore = false ∧ r.busy = true then some (w.free m, messages)
    else if multicore = false ∧ r.isMulticore = true then
      if 2 ^ executorThreads - 1 < r.coreMask then none
      else
        some ({ w with taken := w.taken ++ [m], toQuorum := w.toQuorum ++ [(m, r)] }.free m,
          messages)
    else if r.code = .stable then
      if w.leads then (w.toCore executorThreads m r).map (·, messages)
      else some (w.free m, messages)
    else if (if multicore then r.snapshotTerm else r.quorumTerm) ≠ w.srv.currentTerm then
      some (w.free m, messages)
    else if r.readOnly then
      if w.leads then (w.toCore executorThreads m r).map (·, messages)
      else some (w.free m, messages)
    else some (w, enterBatch messages m r)

/-- The loop of `accept`. -/
def acceptAll (executorThreads : Nat) (multicore : Bool) :
    Monitor ι → List (Batch ι) → List (Nat × Request ι) → Option (Monitor ι × List (Batch ι))
  | w, messages, [] => some (w, messages)
  | w, messages, (m, r) :: rest =>
    (acceptOne executorThreads multicore w messages m r).bind fun p =>
      acceptAll executorThreads multicore p.1 p.2 rest

/-- The end of `accept`: the messages go to the raft server, or their packets are freed. -/
def submit (w : Monitor ι) (env : Env (List Nat)) (messages : List (Batch ι)) :
    Option (Monitor ι) :=
  if messages = [] then some w
  else
    match w.srv.raftRecvEntryBatch env
        (messages.map fun b => { id := 0, type := b.type, data := b.chain }) with
    | .error _ => none
    | .ok (srv, answer) =>
      if answer.isOk then some (w.absorb srv)
      else
        some { w.absorb srv with
          freed := (w.absorb srv).freed ++ messages.flatMap Batch.chain }

/-- Numbers for packets that are new to the thread. -/
def number (w : Monitor ι) (rs : List (Request ι)) : List (Nat × Request ι) :=
  (rs.zipIdx w.received).map Prod.swap

def accept (executorThreads : Nat) (w : Monitor ι) (env : Env (List Nat))
    (burst : List (Request ι)) : Option (Monitor ι) :=
  (acceptAll executorThreads false { w with received := w.received + burst.length } []
    (w.number burst)).bind fun p => p.1.submit env p.2

/-- The requests of the quorum's ring: each is cloned and its reference freed, and the clones are
accepted. -/
def transactions (executorThreads : Nat) (w : Monitor ι) (env : Env (List Nat)) :
    Option (Monitor ι) :=
  let ring := w.toQuorum.take 32
  let cloned : Monitor ι :=
    { w with
      toQuorum := w.toQuorum.drop 32
      received := w.received + ring.length
      freed := w.freed ++ ring.map Prod.fst }
  (acceptAll executorThreads true cloned [] (w.number (ring.map Prod.snd))).bind fun p =>
    p.1.submit env p.2

def step (executorThreads : Nat) (w : Monitor ι) : MonitorAct ι → Option (Monitor ι)
  | .raft env p => w.raftPacket (ownPacket env) p
  | .accept env burst => if burst.length ≤ 32 then w.accept executorThreads env burst else none
  | .transactions env => w.transactions executorThreads env
  | .periodic env msec => (w.srv.step (ownPacket env, .periodic msec)).map w.absorb
  | .kicker env =>
    (w.srv.step (ownPacket env, .recvEntryBatch [{ id := 0, type := .normal, data := [] }])).map
      w.absorb
  | .publish =>
    some { w with
      snapshot := 2 * w.srv.currentTerm + if w.srv.cycloneIsLeader then 1 else 0 }
  | .done k =>
    (w.toCores[k]?).map fun m =>
      { w with toCores := w.toCores.eraseIdx k, freed := w.freed ++ [m] }

def boot (me : ι) (replicas : Nat) (cfg : Config) (active : List ι) : Monitor ι where
  srv := Server.boot me replicas cfg active
  snapshot := -2
  toCores := []
  toQuorum := []
  received := 0
  freed := []
  taken := []

/-- How often a packet is held: by entries of the log, by a core's ring, by the quorum's ring. -/
def held (w : Monitor ι) (m : Nat) : Nat :=
  w.srv.journal.held m + w.toCores.count m + (w.toQuorum.map Prod.fst).count m

/-- No packet is rejected for its source, size or segments, and a message has one entry at most. -/
def Plain (_ : Monitor ι) : MonitorAct ι → Prop
  | .raft _ p => (p.junk = none ∨ p.junk = some .protocol) ∧
      match p.msg with
      | some (.appendentries ae) => ae.entries.length ≤ 1
      | _ => True
  | .accept _ burst => ∀ r ∈ burst, r.junk = none ∨ r.junk = some .protocol
  | _ => True

instance (w : Monitor ι) : ∀ a : MonitorAct ι, Decidable (w.Plain a)
  | .raft _ ⟨_, _, some (.appendentries _)⟩ => inferInstanceAs (Decidable (_ ∧ _ ≤ 1))
  | .raft _ ⟨_, _, none⟩ | .raft _ ⟨_, _, some (.requestvote _)⟩
  | .raft _ ⟨_, _, some (.requestvoteResponse _)⟩
  | .raft _ ⟨_, _, some (.appendentriesResponse _)⟩ => inferInstanceAs (Decidable (_ ∧ True))
  | .accept _ burst => inferInstanceAs (Decidable (∀ r ∈ burst, _))
  | .transactions _ | .periodic _ _ | .kicker _ | .publish | .done _ => isTrue trivial

/-! ## Accounts -/

/-- Every received packet and every extra reference is freed, held, or in the thread's hand. -/
def Accounts (w : Monitor ι) (hand : List Nat) : Prop :=
  ∀ m, w.freed.count m + w.held m + hand.count m =
    (if m < w.received then 1 else 0) + w.taken.count m

section Accounts

set_option linter.unusedSectionVars false

variable {w : Monitor ι} {hand : List Nat} {m : Nat}

variable {w' : Monitor ι}

theorem Accounts.of_counts {hand' : List Nat} (accounts : w.Accounts hand)
    (received : w'.received = w.received)
    (even : ∀ x, w'.freed.count x + w'.held x + hand'.count x + w.taken.count x =
      w.freed.count x + w.held x + hand.count x + w'.taken.count x) : w'.Accounts hand' := by
  intro x
  have here := accounts x
  have same := even x
  rw [received]
  omega

theorem Accounts.free (accounts : w.Accounts (m :: hand)) : (w.free m).Accounts hand := by
  refine accounts.of_counts rfl fun x => ?_
  simp only [Monitor.free, held, List.count_append, List.count_cons, List.count_nil]
  omega

theorem Accounts.reject (accounts : w.Accounts (m :: hand)) {junk : Junk}
    (plain : junk = .protocol) : (w.reject m junk).Accounts hand := by
  subst plain
  exact accounts.free

theorem Accounts.toCore (accounts : w.Accounts (m :: hand)) {executorThreads : Nat}
    {r : Request ι} (put : w.toCore executorThreads m r = some w') : w'.Accounts hand := by
  unfold Monitor.toCore at put
  split at put
  · cases put
    refine accounts.of_counts rfl fun x => ?_
    simp only [held, List.count_append, List.count_cons, List.count_nil]
    omega
  · cases put

/-- A packet that goes to the quorum's ring leaves its own reference behind. -/
theorem Accounts.toQuorum (accounts : w.Accounts (m :: hand)) (r : Request ι) :
    ({ w with taken := w.taken ++ [m], toQuorum := w.toQuorum ++ [(m, r)] }.free m).Accounts
      hand := by
  refine accounts.of_counts rfl fun x => ?_
  simp only [Monitor.free, held, List.map_append, List.map_cons, List.map_nil, List.count_append,
    List.count_cons, List.count_nil]
  omega

theorem count_flatMap_givesBack (m : Nat) (cs : List (Callback ι (List Nat))) :
    (cs.flatMap givesBack).count m = total (Callback.releases m) cs + total (Callback.spares m) cs := by
  induction cs with
  | nil => rfl
  | cons c cs ih =>
    have one : (givesBack c).count m = c.releases m + c.spares m := by
      cases c <;> simp [givesBack, Callback.releases, Callback.spares, packets, List.count_flatMap,
        Function.comp_def]
    simp only [List.flatMap_cons, List.count_append, total_cons, one, ih]
    omega

/-- A call of the raft server that takes over or spares just the packets `given`. -/
theorem Accounts.absorb {srv : Server ι (List Nat)} {given : List Nat}
    (accounts : w.Accounts (given ++ hand))
    (told : Journal.Run .empty w.srv.calls w.srv.journal) (tells : Tells w.srv srv)
    (handed : ∀ x, Handed x w.srv srv (given.count x)) : (w.absorb srv).Accounts hand := by
  refine accounts.of_counts rfl fun x => ?_
  obtain ⟨cs, calls, run⟩ := tells
  obtain ⟨front, inside, -⟩ := told.balance x (Nat.le_refl _) (Nat.le_refl _)
  obtain ⟨-, -, even⟩ := run.balance x front inside
  obtain ⟨cs', calls', sum⟩ := handed x
  obtain rfl : cs = cs' := List.append_cancel_left (calls.symm.trans calls')
  have new : srv.calls.drop w.srv.calls.length = cs := by rw [calls, List.drop_left]
  simp only [Monitor.absorb, new, held, List.count_append, count_flatMap_givesBack]
  omega

end Accounts

/-- What holds between the steps. -/
structure Sound (w : Monitor ι) : Prop where
  chain : IndexChain w.srv
  told : Journal.Run .empty w.srv.calls w.srv.journal
  accounts : w.Accounts []

section Steps

set_option linter.unusedSectionVars false

variable {w w' : Monitor ι} {executorThreads : Nat}

variable {env : Env (List Nat)} {input : Input ι (List Nat)} {srv : Server ι (List Nat)}
  {hand : List Nat}

/-- A call that returns, with what it was given. -/
theorem absorbed {given : List Nat} (chain : IndexChain w.srv)
    (told : Journal.Run .empty w.srv.calls w.srv.journal) (accounts : w.Accounts (given ++ hand))
    (stepped : w.srv.step (env, input) = some srv)
    (handed : ∀ x, Handed x w.srv srv (given.count x)) :
    IndexChain (w.absorb srv).srv ∧
      Journal.Run .empty (w.absorb srv).srv.calls (w.absorb srv).srv.journal ∧
      (w.absorb srv).Accounts hand := by
  have tells := tells_step chain stepped
  refine ⟨(advances_step stepped chain).1, ?_, accounts.absorb told tells handed⟩
  obtain ⟨cs, calls, run⟩ := tells
  change Journal.Run .empty srv.calls srv.journal
  rw [calls]
  exact told.trans run

/-- A call that is handed no packets. -/
theorem absorbed_none (chain : IndexChain w.srv)
    (told : Journal.Run .empty w.srv.calls w.srv.journal) (accounts : w.Accounts hand)
    (stepped : w.srv.step (env, input) = some srv) (handed : ∀ x, Handed x w.srv srv 0) :
    IndexChain (w.absorb srv).srv ∧
      Journal.Run .empty (w.absorb srv).srv.calls (w.absorb srv).srv.journal ∧
      (w.absorb srv).Accounts hand :=
  absorbed chain told (show w.Accounts ([] ++ hand) from accounts) stepped handed

theorem step_of_handle {s s' : Server ι (List Nat)} {answer : Option (Msg ι (List Nat))}
    (ran : s.handle env input = .ok (s', answer)) : s.step (env, input) = some s' := by
  rw [Server.step]
  simp only [ran]

variable {m : Nat}

theorem packets_holding {x : Nat} {es : List (Entry ι (List Nat))} (short : es.length ≤ 1) :
    packets x (holding m es) = if es = [] then 0 else [m].count x := by
  match es with
  | [] => rfl
  | [e] => simp [holding]
  | _ :: _ :: _ => simp at short

theorem handleIncoming_sound {source : ι} {msg : Option (Msg ι (List Nat))}
    (chain : IndexChain w.srv) (told : Journal.Run .empty w.srv.calls w.srv.journal)
    (accounts : w.Accounts [m]) (own : env.completion = [])
    (short : ∀ ae, msg = some (.appendentries ae) → ae.entries.length ≤ 1)
    (ran : w.handleIncoming env m source msg = some w') : Sound w' := by
  -- every other message is handed no packets, and its own is freed
  have plain : ∀ msg' : Msg ι (List Nat), (∀ ae, msg' ≠ .appendentries ae) →
      ∀ srv answer, w.srv.handleIncoming env source msg' = .ok (srv, answer) →
        Sound ((w.absorb srv).free m) := by
    intro msg' other srv answer handled
    have stepped : w.srv.step (env, .recv source msg') = some srv := step_of_handle handled
    have handed : ∀ x, Handed x w.srv srv 0 := fun x =>
      Handed.course (step_course stepped) own
        (by rintro source' ae same; cases same; exact other ae rfl) (by simp) (by simp)
    obtain ⟨chain', told', accounts'⟩ := absorbed_none chain told accounts stepped handed
    exact ⟨chain', told', accounts'.free⟩
  cases msg with
  | none => cases ran
  | some msg =>
    cases msg with
    | appendentries ae =>
      simp only [Monitor.handleIncoming] at ran
      split at ran
      · cases ran
      rename_i srv r received
      have stepped : w.srv.step (env, .recv source
          (.appendentries { ae with entries := holding m ae.entries })) = some srv := by
        have handled : w.srv.handle env (.recv source (.appendentries { ae with
            entries := holding m ae.entries })) = .ok (srv, some (.appendentriesResponse r)) := by
          simp only [Server.handle, Server.handleIncoming, received, Except.map]
        exact step_of_handle handled
      have handed := fun x => Handed.raftRecvAppendentries (m := x) received
      simp only [packets_holding (short ae rfl)] at handed
      split at ran
      · rename_i back
        cases ran
        have none_ : ∀ x, Handed x w.srv srv 0 := by
          intro x
          have given := handed x
          rcases back with failed | empty
          · rwa [failed, if_neg (by decide)] at given
          · rwa [if_pos empty, ite_self] at given
        obtain ⟨chain', told', accounts'⟩ := absorbed_none chain told accounts stepped none_
        exact ⟨chain', told', accounts'.free⟩
      · rename_i kept
        cases ran
        push Not at kept
        obtain ⟨success, full⟩ := kept
        have given : ∀ x, Handed x w.srv srv ([m].count x) := by
          intro x
          have given := handed x
          rwa [if_pos (by simpa using success), if_neg full] at given
        obtain ⟨chain', told', accounts'⟩ :=
          absorbed chain told (show w.Accounts ([m] ++ []) from accounts) stepped given
        exact ⟨chain', told', accounts'⟩
    | requestvote rv =>
      simp only [Monitor.handleIncoming] at ran
      split at ran
      · cases ran
      · rename_i srv answer handled
        cases ran
        exact plain (.requestvote rv) (fun _ same => by cases same) srv answer handled
    | requestvoteResponse rvr =>
      simp only [Monitor.handleIncoming] at ran
      split at ran
      · cases ran
      · rename_i srv answer handled
        cases ran
        exact plain (.requestvoteResponse rvr) (fun _ same => by cases same) srv answer handled
    | appendentriesResponse aer =>
      simp only [Monitor.handleIncoming] at ran
      split at ran
      · cases ran
      · rename_i srv answer handled
        cases ran
        exact plain (.appendentriesResponse aer) (fun _ same => by cases same) srv answer handled

/-! Requests. -/

/-- A request goes into one message. -/
theorem count_enterBatch (messages : List (Batch ι)) (m x : Nat) (r : Request ι) :
    ((enterBatch messages m r).flatMap Batch.chain).count x =
      (messages.flatMap Batch.chain).count x + [m].count x := by
  unfold enterBatch
  split
  · simp
  split
  · simp
  simp only
  split
  · rename_i none_
    rw [List.getLast?_eq_none_iff.mp none_]
    simp
  · rename_i last found
    split
    · split
      · have whole := List.dropLast_append_getLast? last found
        conv_rhs => rw [← whole]
        simp only [List.flatMap_append, List.flatMap_cons, List.flatMap_nil, List.append_nil,
          List.count_append]
        omega
      · simp
    · simp

variable {multicore : Bool} {messages : List (Batch ι)}

theorem acceptOne_accounts {messages' : List (Batch ι)} {r : Request ι}
    (accounts : w.Accounts (m :: (messages.flatMap Batch.chain ++ hand)))
    (plain : multicore = false → r.junk = none ∨ r.junk = some .protocol)
    (ran : acceptOne executorThreads multicore w messages m r = some (w', messages')) :
    w'.Accounts (messages'.flatMap Batch.chain ++ hand) ∧ w'.srv = w.srv := by
  have core : ∀ {r : Request ι}, (w.toCore executorThreads m r).map (·, messages) =
      some (w', messages') →
      w'.Accounts (messages'.flatMap Batch.chain ++ hand) ∧ w'.srv = w.srv := by
    intro r put
    obtain ⟨v, stored, same⟩ := Option.map_eq_some_iff.mp put
    cases same
    refine ⟨accounts.toCore stored, ?_⟩
    unfold Monitor.toCore at stored
    split at stored
    · cases stored
      rfl
    · cases stored
  unfold acceptOne at ran
  generalize (if multicore = true then r.snapshotTerm else r.quorumTerm) = term at ran
  split at ran
  · rename_i junk rejected
    cases ran
    refine ⟨accounts.reject ?_, rfl⟩
    rcases plain rfl with none_ | protocol
    · rw [rejected] at none_
      cases none_
    · rw [rejected] at protocol
      cases protocol
      rfl
  · split at ran
    · cases ran
      exact ⟨accounts.free, rfl⟩
    split at ran
    · split at ran
      · cases ran
      · cases ran
        exact ⟨accounts.toQuorum r, rfl⟩
    split at ran
    · split at ran
      · exact core ran
      · cases ran
        exact ⟨accounts.free, rfl⟩
    split at ran
    · cases ran
      exact ⟨accounts.free, rfl⟩
    split at ran
    · split at ran
      · exact core ran
      · cases ran
        exact ⟨accounts.free, rfl⟩
    · cases ran
      refine ⟨accounts.of_counts rfl fun x => ?_, rfl⟩
      rw [← List.singleton_append]
      simp only [List.count_append, count_enterBatch]
      omega

theorem acceptAll_accounts {rs : List (Nat × Request ι)} {messages' : List (Batch ι)}
    (accounts : w.Accounts (rs.map Prod.fst ++ messages.flatMap Batch.chain))
    (plain : multicore = false → ∀ p ∈ rs, p.2.junk = none ∨ p.2.junk = some .protocol)
    (ran : acceptAll executorThreads multicore w messages rs = some (w', messages')) :
    w'.Accounts (messages'.flatMap Batch.chain) ∧ w'.srv = w.srv := by
  induction rs generalizing w messages with
  | nil =>
    cases ran
    exact ⟨accounts, rfl⟩
  | cons p rest ih =>
    obtain ⟨m, r⟩ := p
    obtain ⟨⟨v, entered⟩, one, others⟩ := Option.bind_eq_some_iff.mp ran
    have first : w.Accounts (m :: (messages.flatMap Batch.chain ++ rest.map Prod.fst)) := by
      refine accounts.of_counts rfl fun x => ?_
      simp only [List.map_cons, List.cons_append, List.count_cons, List.count_append]
      omega
    obtain ⟨left, same⟩ := acceptOne_accounts first
      (fun network => plain network (m, r) List.mem_cons_self) one
    have swapped : v.Accounts (rest.map Prod.fst ++ entered.flatMap Batch.chain) := by
      refine left.of_counts rfl fun x => ?_
      simp only [List.count_append]
      omega
    obtain ⟨done, same'⟩ := ih swapped
      (fun network q later => plain network q (List.mem_cons_of_mem _ later)) others
    exact ⟨done, same'.trans same⟩

theorem submit_sound (chain : IndexChain w.srv)
    (told : Journal.Run .empty w.srv.calls w.srv.journal)
    (accounts : w.Accounts (messages.flatMap Batch.chain)) (ran : w.submit env messages = some w') :
    Sound w' := by
  unfold Monitor.submit at ran
  split at ran
  · rename_i empty
    cases ran
    rw [empty] at accounts
    exact ⟨chain, told, accounts⟩
  split at ran
  · cases ran
  rename_i srv answer submitted
  have stepped : w.srv.step (env, .recvEntryBatch
      (messages.map fun b => { id := 0, type := b.type, data := b.chain })) = some srv := by
    have handled : w.srv.handle env (.recvEntryBatch (messages.map fun b =>
        { id := 0, type := b.type, data := b.chain })) = .ok (srv, none) := by
      simp only [Server.handle, submitted, Except.map]
    exact step_of_handle handled
  have handed := fun x => Handed.raftRecvEntryBatch (m := x) submitted
  have sum : ∀ x, ((messages.map fun b : Batch ι =>
      ({ id := 0, type := b.type, data := b.chain } : MsgEntry ι (List Nat))).map
        (·.data.count x)).sum = (messages.flatMap Batch.chain).count x := by
    intro x
    rw [List.map_map, List.count_flatMap]
    rfl
  simp only [sum] at handed
  split at ran
  · rename_i accepted
    cases ran
    simp only [accepted, if_true] at handed
    obtain ⟨chain', told', accounts'⟩ :=
      absorbed chain told (show w.Accounts (messages.flatMap Batch.chain ++ []) by
        rwa [List.append_nil]) stepped handed
    exact ⟨chain', told', accounts'⟩
  · rename_i refused
    cases ran
    simp only [refused, if_false, Bool.false_eq_true] at handed
    obtain ⟨chain', told', accounts'⟩ := absorbed_none chain told accounts stepped handed
    refine ⟨chain', told', accounts'.of_counts rfl fun x => ?_⟩
    simp only [held, List.count_append, List.count_nil]
    omega

/-- New packets are in the thread's hand. -/
theorem Accounts.arrive (accounts : w.Accounts hand) (n : Nat) :
    ({ w with received := w.received + n } : Monitor ι).Accounts
      (List.range' w.received n ++ hand) := by
  intro x
  have here := accounts x
  have new : (List.range' w.received n).count x =
      if w.received ≤ x ∧ x < w.received + n then 1 else 0 := by
    split
    · rename_i inside
      exact List.count_eq_one_of_mem List.nodup_range' (List.mem_range'_1.mpr inside)
    · rename_i outside
      exact List.count_eq_zero_of_not_mem fun member => outside (List.mem_range'_1.mp member)
  change w.freed.count x + w.held x + (List.range' w.received n ++ hand).count x =
    (if x < w.received + n then 1 else 0) + w.taken.count x
  rw [List.count_append, new]
  split_ifs at here ⊢ <;> omega

theorem number_fst (rs : List (Request ι)) :
    (w.number rs).map Prod.fst = List.range' w.received rs.length := by
  rw [Monitor.number, List.map_map, ← List.zipIdx_map_snd]
  rfl

theorem mem_number {rs : List (Request ι)} {p : Nat × Request ι} (member : p ∈ w.number rs) :
    p.2 ∈ rs := by
  obtain ⟨q, found, rfl⟩ := List.mem_map.mp member
  exact List.fst_mem_of_mem_zipIdx found

theorem accept_sound {burst : List (Request ι)} (sound : Sound w)
    (plain : ∀ r ∈ burst, r.junk = none ∨ r.junk = some .protocol)
    (ran : w.accept executorThreads env burst = some w') : Sound w' := by
  obtain ⟨⟨v, messages⟩, accepted, submitted⟩ := Option.bind_eq_some_iff.mp ran
  have arrived := sound.accounts.arrive burst.length
  rw [← number_fst] at arrived
  obtain ⟨accounts, same⟩ := @acceptAll_accounts _ _ _ _ _ _ [] _ _ arrived
    (fun _ p member => plain p.2 (mem_number member)) accepted
  exact submit_sound (same ▸ sound.chain) (same ▸ sound.told) accounts submitted

theorem transactions_sound (sound : Sound w) (ran : w.transactions executorThreads env = some w') :
    Sound w' := by
  obtain ⟨⟨v, messages⟩, accepted, submitted⟩ := Option.bind_eq_some_iff.mp ran
  have arrived := sound.accounts.arrive (w.toQuorum.take 32).length
  rw [← List.length_map (f := Prod.snd), ← number_fst] at arrived
  have cloned : ({ w with
      toQuorum := w.toQuorum.drop 32
      received := w.received + (w.toQuorum.take 32).length
      freed := w.freed ++ (w.toQuorum.take 32).map Prod.fst } : Monitor ι).Accounts
        ((w.number ((w.toQuorum.take 32).map Prod.snd)).map Prod.fst ++ []) := by
    refine arrived.of_counts (by simp) fun x => ?_
    have split : (w.toQuorum.map Prod.fst).count x = ((w.toQuorum.take 32).map Prod.fst).count x +
        ((w.toQuorum.drop 32).map Prod.fst).count x := by
      rw [← List.count_append, ← List.map_append, List.take_append_drop]
    simp only [held, List.count_append, split]
    omega
  obtain ⟨accounts, same⟩ := @acceptAll_accounts _ _ _ _ _ _ [] _ _ cloned
    (fun network => absurd network (by decide)) accepted
  exact submit_sound (same ▸ sound.chain) (same ▸ sound.told) accounts submitted

theorem raftPacket_sound {p : Incoming ι} (sound : Sound w) (own : env.completion = [])
    (junk : p.junk = none ∨ p.junk = some .protocol)
    (short : ∀ ae, p.msg = some (.appendentries ae) → ae.entries.length ≤ 1)
    (ran : w.raftPacket env p = some w') : Sound w' := by
  have arrived := sound.accounts.arrive 1
  unfold Monitor.raftPacket at ran
  simp only at ran
  split at ran
  · rename_i reason rejected
    cases ran
    refine ⟨sound.chain, sound.told, arrived.reject ?_⟩
    rcases junk with none_ | protocol
    · rw [rejected] at none_
      cases none_
    · rw [rejected] at protocol
      cases protocol
      rfl
  · exact handleIncoming_sound (w := { w with received := w.received + 1 }) sound.chain sound.told
      arrived own short ran

/-- An own call of the thread. -/
theorem ownCall_sound (sound : Sound w) (stepped : w.srv.step (env, input) = some srv)
    (handed : ∀ x, Handed x w.srv srv 0) : Sound (w.absorb srv) := by
  obtain ⟨chain, told, accounts⟩ :=
    absorbed_none sound.chain sound.told sound.accounts stepped handed
  exact ⟨chain, told, accounts⟩

theorem kicker_handed
    (stepped : w.srv.step (env, .recvEntryBatch [{ id := 0, type := .normal, data := [] }]) =
      some srv) (x : Nat) : Handed x w.srv srv 0 := by
  unfold Server.step at stepped
  split at stepped
  · rename_i p ran
    cases stepped
    obtain ⟨⟨t, answer⟩, submitted, rfl⟩ := Theory.ok_of_map ran
    have handed := Handed.raftRecvEntryBatch (m := x) submitted
    simpa using handed
  · cases stepped

theorem done_sound {k : Nat} (sound : Sound w) (ran : w.step executorThreads (.done k) = some w') :
    Sound w' := by
  obtain ⟨m, found, rfl⟩ := Option.map_eq_some_iff.mp ran
  obtain ⟨bound, rfl⟩ := List.getElem?_eq_some_iff.mp found
  refine ⟨sound.chain, sound.told, sound.accounts.of_counts rfl fun x => ?_⟩
  have split := (List.getElem_cons_eraseIdx_perm bound).count_eq x
  simp only [held, List.count_append, List.count_cons, List.count_nil] at split ⊢
  omega

theorem step_sound {a : MonitorAct ι} (sound : Sound w) (plain : w.Plain a)
    (ran : w.step executorThreads a = some w') : Sound w' := by
  cases a with
  | raft env p =>
    obtain ⟨junk, short⟩ := plain
    refine raftPacket_sound sound (show (ownPacket env).completion = [] from rfl) junk (fun ae same => ?_) ran
    rw [same] at short
    exact short
  | accept env burst =>
    rw [Monitor.step] at ran
    split at ran
    · exact accept_sound sound plain ran
    · cases ran
  | transactions env => exact transactions_sound sound ran
  | periodic env msec =>
    obtain ⟨srv, stepped, rfl⟩ := Option.map_eq_some_iff.mp ran
    exact ownCall_sound sound stepped fun x =>
      Handed.course (step_course stepped) rfl (by simp) (by simp) (by simp)
  | kicker env =>
    obtain ⟨srv, stepped, rfl⟩ := Option.map_eq_some_iff.mp ran
    exact ownCall_sound sound stepped (kicker_handed stepped)
  | publish =>
    cases ran
    exact ⟨sound.chain, sound.told, sound.accounts⟩
  | done k => exact done_sound sound ran

end Steps

/-- **Each packet once.**  However packets arrive on the two queues and whatever they contain: if none
is rejected for its source, its size or its segments and no message carries more than one entry, then
in every state a received packet has been freed or is held by a log entry or a ring, exactly once in
all, where a reference taken for the quorum's ring counts for itself. -/
theorem packets_accounted (executorThreads : Nat) (me : ι) (replicas : Nat) (cfg : Config)
    (active : List ι) (target : 1 ≤ cfg.logTarget) {w : Monitor ι}
    (run : Path (Monitor.step executorThreads) Plain (Monitor.boot me replicas cfg active) w)
    {m : Nat} (arrived : m < w.received) :
    w.freed.count m + w.held m = 1 + w.taken.count m ∧
      (m ∉ w.taken →
        w.freed.count m = 1 ∧ w.held m = 0 ∨ w.freed.count m = 0 ∧ w.held m = 1) := by
  have fresh := boot_fresh (α := List Nat) me replicas active target
  have start : Sound (Monitor.boot me replicas cfg active : Monitor ι) := by
    have journal : (Server.boot me replicas cfg active : Server ι (List Nat)).journal = .empty := by
      rw [Server.journal, fresh.log, fresh.lastAppliedIdx]
      rfl
    refine ⟨fresh.indexChain, ?_, fun x => ?_⟩
    · change Journal.Run .empty (Server.boot me replicas cfg active).calls
        (Server.boot me replicas cfg active).journal
      rw [journal, fresh.calls]
      exact .nil _
    · have none_ : (Monitor.boot me replicas cfg active : Monitor ι).held x = 0 := by
        change (Server.boot me replicas cfg active : Server ι (List Nat)).journal.held x + 0 + 0 = 0
        rw [journal]
        rfl
      rw [none_]
      rfl
  have sound : Sound w :=
    run.keeps start fun _ _ _ sound plain moved => step_sound sound plain moved
  have here := sound.accounts m
  rw [if_pos arrived, List.count_nil, Nat.add_zero] at here
  refine ⟨here, fun own => ?_⟩
  rw [List.count_eq_zero_of_not_mem own] at here
  omega

/-- A request for the cores of `mask` in term 0. -/
def askFor (junk : Option Junk) (readOnly : Bool) (mask : Nat) : Request (Fin 1) :=
  { junk := junk, busy := false, code := .req, readOnly := readOnly, coreMask := mask
    quorumTerm := 0, snapshotTerm := 0, node := 0, size := 60 }

/-- A lone leader: an update stays in its log, a read in its core's ring, and a packet of another
protocol is freed. -/
theorem packets_accounted_lone : ∃ w : Monitor (Fin 1),
    w.received = 3 ∧ w.freed = [1] ∧ w.toCores = [2] ∧
    ∀ m, m < w.received → (w.freed.count m + w.held m = 1 + w.taken.count m ∧
      (m ∉ w.taken →
        w.freed.count m = 1 ∧ w.held m = 0 ∨ w.freed.count m = 0 ∧ w.held m = 1)) := by
  have ran : ∃ w ∈ exec (Monitor.step 2) Plain (Monitor.boot (0 : Fin 1) 1 smallCfg [0])
      [.periodic (quietEnv []) 1, .publish, .accept (quietEnv [])
        [askFor none false 1, askFor (some .protocol) false 1, askFor none true 2]],
      w.received = 3 ∧ w.freed = [1] ∧ w.toCores = [2] := by
    decide +kernel
  obtain ⟨w, run, received, freed, ring⟩ := Path.exists_of_exec ran
  exact ⟨w, received, freed, ring, fun m arrived =>
    packets_accounted 2 0 1 smallCfg [0] (by decide) run arrived⟩

/-- A packet with a foreign address on the raft queue: `bad` frees it, and the loop frees it again. -/
theorem rejected_freed_twice : ∃ w : Monitor (Fin 1),
    Path (Monitor.step 2) anyStep (Monitor.boot (0 : Fin 1) 1 smallCfg [0]) w ∧
      0 < w.received ∧ 0 ∉ w.taken ∧ w.freed.count 0 = 2 := by
  refine Path.exists_of_exec (l := [.raft (quietEnv []) ⟨some .source, 0, none⟩]) ?_
  decide +kernel

end Monitor

end Cyclone.Core
