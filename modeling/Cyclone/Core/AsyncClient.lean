/-
# Core.AsyncClient — asynchronous requests and their callbacks

`make_rpc_async` puts the context of a request in the ring `to_lstnr`, transmits the request
and returns; the listener thread moves contexts from the ring to `pendresponse_map`, takes a
burst of responses, calls the callback of each response whose context it finds, and sweeps the map
for requests that have timed out.  Contexts and responses reach it over two channels: a response that
overtakes its context is dropped.  The sweep erases the element its iterator stands on and
then increments the iterator, which is undefined; no step of the model leaves that state.

The client and the listener interleave at every access to what they share.  A call is known by its
number, which stands for its callback and arguments; the number on the wire is its residue.

* `one_callback`: if requests name one core, no response is taken while its context is in the ring,
  and no sweep meets a timed out context, then every call that returned 0 waits or had exactly one
  callback, with the response if one was received, and has had it after a round past its deadline.
* `response_overtakes`: a response is received and the callback reports a timeout.
-/
import Cyclone.Theory.Run
import Mathlib.Data.List.Sort
import Mathlib.Data.List.Nodup
import Mathlib.Tactic.Common
import Mathlib.Algebra.Group.Nat.Defs
import Mathlib.Algebra.Group.Int.Defs

namespace Cyclone.Core

open Cyclone.Theory (Path exec anyStep)

set_option autoImplicit false

/-- What a callback is told: `REP_SUCCESS`, `REP_FAILED`, `REP_TIMEDOUT`. -/
inductive CallbackCode where
  | success
  | failed
  | timedout
deriving DecidableEq, Repr

/-- The code for a response, by whether its own code is `RPC_REP_OK`. -/
def CallbackCode.ofReply (ok : Bool) : CallbackCode := if ok then .success else .failed

/-- `async_comm_t` of a call. -/
structure Context where
  call : Nat
  channelSeq : Nat
  timestamp : Nat
deriving DecidableEq, Repr

/-- What arrives: a response to a call, or a packet that is none. -/
inductive Packet where
  | response (call : Nat) (ok : Bool)
  | junk
deriving DecidableEq, Repr

/-- Where the client thread is in `make_rpc_async`. -/
inductive Client where
  | idle
  | prepared (call : Nat)
  | stamped (context : Context)
  | queued (call : Nat)
  | sent (call : Nat)
deriving DecidableEq, Repr

/-- Where the listener thread is in its loop; `stopped` is its return on a junk packet. -/
inductive Listener where
  | drain
  | burst
  | packets (rest : List Packet)
  | sweep (rest : List Context)
  | stopped
  | undefined
deriving DecidableEq, Repr

/-- `async_timeout_msec`. -/
def asyncTimeout : Nat := 500000000

/-- `PKT_BURST`. -/
def pktBurst : Nat := 32

/-- The wire's sequence number of a call: `channel_aseq` is an `unsigned long`. -/
def wireSeq (call : Nat) : Nat := call % 2 ^ 64

/-- The client and what it shares with its listener.  The last four fields are history: calls
that returned 0, transmitted requests, callbacks, and the first response received for a call that
had not timed out. -/
structure AsyncClient where
  clock : Nat
  channelAseq : Nat
  msgInflight : Int
  client : Client
  toLstnr : List Context
  pendresponseMap : List Context
  rxQueue : List Packet
  listener : Listener
  rounds : Nat
  returned : List Nat
  transmitted : List Nat
  invoked : List (Nat × CallbackCode)
  received : List (Nat × Bool)
deriving DecidableEq, Repr

/-- A step: time passes, a call of `make_rpc_async`, its next step (`sent` is what `cyclone_tx` did), a
packet arrives, or the listener's next step (`count` packets in a burst). -/
inductive AsyncLabel where
  | tick (usec : Nat)
  | call (coreMask : Nat)
  | client (sent : Bool)
  | deliver (packet : Packet)
  | listen (count : Nat)
deriving DecidableEq, Repr

namespace AsyncClient

def init : AsyncClient where
  clock := 0
  channelAseq := 0
  msgInflight := 0
  client := .idle
  toLstnr := []
  pendresponseMap := []
  rxQueue := []
  listener := .drain
  rounds := 0
  returned := []
  transmitted := []
  invoked := []
  received := []

/-- `get_inflight() >= max_inflight`, an unsigned comparison. -/
def full (s : AsyncClient) (maxInflight : Nat) : Bool :=
  (maxInflight : Int) ≤ s.msgInflight % 2 ^ 64

/-- `make_rpc_async` up to the point where it leaves the client's own memory. -/
def makeRpcAsync (s : AsyncClient) (maxInflight coreMask : Nat) : AsyncClient :=
  if s.full maxInflight then s
  else if coreMask &&& (coreMask - 1) ≠ 0 then
    { s with channelAseq := s.channelAseq + 1, returned := s.returned ++ [s.channelAseq] }
  else { s with channelAseq := s.channelAseq + 1, client := .prepared s.channelAseq }

/-- `send_to_server_async` and the return. -/
def clientTurn (s : AsyncClient) (sent : Bool) : Option AsyncClient :=
  match s.client with
  | .idle => none
  | .prepared call => some { s with client := .stamped ⟨call, wireSeq call, s.clock⟩ }
  | .stamped context =>
    some { s with toLstnr := s.toLstnr ++ [context], client := .queued context.call }
  | .queued call =>
    some { s with
      transmitted := if sent then s.transmitted ++ [call] else s.transmitted
      client := .sent call }
  | .sent call =>
    some { s with
      msgInflight := s.msgInflight + 1, returned := s.returned ++ [call], client := .idle }

/-- `pendresponse_map->insert`: an element with the same key stays. -/
def insert (pending : List Context) (context : Context) : List Context :=
  if pending.any (·.channelSeq = context.channelSeq) then pending
  else pending.orderedInsert (fun a b => a.channelSeq ≤ b.channelSeq) context

/-- The callback of a context, which then leaves the map. -/
def settle (s : AsyncClient) (context : Context) (code : CallbackCode) : AsyncClient :=
  { s with
    invoked := s.invoked ++ [(context.call, code)]
    pendresponseMap := s.pendresponseMap.erase context
    msgInflight := s.msgInflight - 1 }

/-- History: the first response to a call that has not timed out. -/
def note (s : AsyncClient) (call : Nat) (ok : Bool) : AsyncClient :=
  if (call, .timedout) ∈ s.invoked ∨ call ∈ s.received.map Prod.fst then s
  else { s with received := s.received ++ [(call, ok)] }

/-- A response is taken from the burst. -/
def handle (s : AsyncClient) (call : Nat) (ok : Bool) : AsyncClient :=
  match s.pendresponseMap.find? (·.channelSeq = wireSeq call) with
  | some context => (s.note call ok).settle context (.ofReply ok)
  | none => s.note call ok

/-- One step of `async_lstener_t_::exec`. -/
def listenerTurn (s : AsyncClient) (count : Nat) : Option AsyncClient :=
  match s.listener with
  | .drain =>
    match s.toLstnr with
    | context :: rest =>
      some { s with toLstnr := rest, pendresponseMap := insert s.pendresponseMap context }
    | [] => some { s with listener := .burst }
  | .burst =>
    if count ≤ pktBurst then
      some { s with rxQueue := s.rxQueue.drop count, listener := .packets (s.rxQueue.take count) }
    else none
  | .packets (.response call ok :: rest) => some { s.handle call ok with listener := .packets rest }
  | .packets (.junk :: _) => some { s with listener := .stopped }
  | .packets [] => some { s with listener := .sweep s.pendresponseMap }
  | .sweep (context :: rest) =>
    if asyncTimeout ≤ s.clock - context.timestamp then
      -- the iterator's element is erased before the iterator is incremented
      some { s.settle context .timedout with listener := .undefined }
    else some { s with listener := .sweep rest }
  | .sweep [] => some { s with listener := .drain, rounds := s.rounds + 1 }
  | .stopped => none
  | .undefined => none

/-- A step of the system. -/
def step (maxInflight : Nat) (s : AsyncClient) : AsyncLabel → Option AsyncClient
  | .tick usec => some { s with clock := s.clock + usec }
  | .call coreMask => if s.client = .idle then some (s.makeRpcAsync maxInflight coreMask) else none
  | .client sent => s.clientTurn sent
  | .deliver (.response call ok) =>
    if call ∈ s.transmitted then some { s with rxQueue := s.rxQueue ++ [.response call ok] }
    else none
  | .deliver .junk => some { s with rxQueue := s.rxQueue ++ [.junk] }
  | .listen count => s.listenerTurn count

/-- The listener's next step is on good ground: the responses of the burst have their contexts out of
the ring, and the sweep's next context has not timed out. -/
def Ready (s : AsyncClient) (count : Nat) : Prop :=
  match s.listener with
  | .burst => ∀ context ∈ s.toLstnr, ∀ p ∈ s.rxQueue.take count,
      ∀ ok, p ≠ .response context.call ok
  | .sweep (context :: _) => s.clock - context.timestamp < asyncTimeout
  | _ => True

/-- A request names one core and the sequence numbers have not wrapped, no junk arrives, and the
listener's step is on good ground. -/
def Orderly (s : AsyncClient) : AsyncLabel → Prop
  | .call coreMask => coreMask &&& (coreMask - 1) = 0 ∧ s.channelAseq < 2 ^ 64
  | .deliver .junk => False
  | .listen count => s.Ready count
  | _ => True

instance (s : AsyncClient) (count : Nat) : Decidable (s.Ready count) := by
  unfold Ready
  split <;> infer_instance

instance (s : AsyncClient) : ∀ l : AsyncLabel, Decidable (s.Orderly l)
  | .call _ => inferInstanceAs (Decidable (_ ∧ _))
  | .deliver .junk => isFalse id
  | .listen count => inferInstanceAs (Decidable (s.Ready count))
  | .deliver (.response _ _) | .tick _ | .client _ => isTrue trivial

/-- The codes a call's callback was invoked with. -/
def invocations (s : AsyncClient) (call : Nat) : List CallbackCode :=
  s.invoked.filterMap fun p => if p.1 = call then some p.2 else none

/-- The contexts the listener can still get to. -/
def waiting (s : AsyncClient) : List Context := s.toLstnr ++ s.pendresponseMap

/-- The deadline of a call has passed. -/
def Overdue (s : AsyncClient) (call : Nat) : Prop :=
  ∀ context ∈ s.waiting, context.call = call → context.timestamp + asyncTimeout ≤ s.clock

/-! ## Where a call is -/

/-- The call whose context only the client thread knows. -/
def inHand : Client → List Nat
  | .prepared call => [call]
  | .stamped context => [context.call]
  | _ => []

/-- Every call on its way: in the client's hand, waiting, or called back. -/
def calls (s : AsyncClient) : List Nat :=
  inHand s.client ++ s.waiting.map Context.call ++ s.invoked.map Prod.fst

/-- The listener has the call, or will get it from the ring. -/
def Known (s : AsyncClient) (call : Nat) : Prop :=
  call ∈ s.waiting.map Context.call ∨ call ∈ s.invoked.map Prod.fst

/-- The listener can answer a response to the call. -/
def Drained (s : AsyncClient) (call : Nat) : Prop :=
  call ∈ s.pendresponseMap.map Context.call ∨ call ∈ s.invoked.map Prod.fst

variable {s : AsyncClient} {call : Nat}

theorem Drained.known (drained : s.Drained call) : s.Known call := by
  refine drained.imp_left fun pending => ?_
  rw [waiting, List.map_append]
  exact List.mem_append_right _ pending

theorem Known.mem_calls (known : s.Known call) : call ∈ s.calls := by
  rcases known with waits | done
  · exact List.mem_append_left _ (List.mem_append_right _ waits)
  · exact List.mem_append_right _ done

/-- What holds along an orderly run: a call is at one place, with its own sequence number; what
returned or was transmitted is known to the listener; what the listener took is answerable; and the
callbacks are the responses received. -/
structure Sound (s : AsyncClient) : Prop where
  apart : s.calls.Nodup
  below : ∀ call ∈ s.calls, call < s.channelAseq
  short : s.channelAseq ≤ 2 ^ 64
  stamped : ∀ context, s.client = .stamped context → context.channelSeq = wireSeq context.call
  seqs : ∀ context ∈ s.waiting, context.channelSeq = wireSeq context.call
  queued : ∀ call, s.client = .queued call ∨ s.client = .sent call → s.Known call
  returned : ∀ call ∈ s.returned, s.Known call
  transmitted : ∀ call ∈ s.transmitted, s.Known call
  delivered : ∀ p ∈ s.rxQueue, ∃ call ok, p = .response call ok ∧ call ∈ s.transmitted
  taken : ∀ rest, s.listener = .packets rest → ∀ p ∈ rest, ∃ call ok, p = .response call ok ∧
    s.Drained call
  replied : ∀ p ∈ s.received, (p.1, .ofReply p.2) ∈ s.invoked
  answers : ∀ p ∈ s.invoked, p.1 ∈ s.received.map Prod.fst ∧ p.2 ≠ .timedout

theorem wireSeq_of_lt (below : call < 2 ^ 64) : wireSeq call = call :=
  Nat.mod_eq_of_lt below

namespace Sound

variable {s s' : AsyncClient}

theorem init : Sound AsyncClient.init where
  apart := List.nodup_nil
  below := by simp [calls, AsyncClient.init, inHand, waiting]
  short := by simp [AsyncClient.init]
  stamped := by simp [AsyncClient.init]
  seqs := by simp [AsyncClient.init, waiting]
  queued := by simp [AsyncClient.init]
  returned := by simp [AsyncClient.init]
  transmitted := by simp [AsyncClient.init]
  delivered := by simp [AsyncClient.init]
  taken := by simp [AsyncClient.init]
  replied := by simp [AsyncClient.init]
  answers := by simp [AsyncClient.init]

variable {call : Nat}

variable (sound : Sound s)
include sound

theorem lt_wire (known : s.Known call) : call < 2 ^ 64 :=
  Nat.lt_of_lt_of_le (sound.below call known.mem_calls) sound.short

variable {context : Context}

/-- A waiting context is found under its own number only. -/
theorem call_eq (waits : context ∈ s.waiting) (known : s.Known call)
    (same : context.channelSeq = wireSeq call) : context.call = call := by
  have own : s.Known context.call := Or.inl (List.mem_map_of_mem waits)
  rw [sound.seqs context waits, wireSeq_of_lt (sound.lt_wire own), wireSeq_of_lt (sound.lt_wire known)]
    at same
  exact same

/-! The client's steps. -/

variable {maxInflight : Nat}

theorem makeRpcAsync {coreMask : Nat} (idle : s.client = .idle)
    (single : coreMask &&& (coreMask - 1) = 0) (fresh : s.channelAseq < 2 ^ 64) :
    Sound (s.makeRpcAsync maxInflight coreMask) := by
  unfold AsyncClient.makeRpcAsync
  split
  · exact sound
  rw [if_neg (not_not.mpr single)]
  have more : ({ s with
      channelAseq := s.channelAseq + 1, client := .prepared s.channelAseq } : AsyncClient).calls =
      s.channelAseq :: s.calls := by
    simp [calls, inHand, idle, waiting]
  refine { sound with apart := ?_, below := ?_, short := ?_, stamped := ?_, queued := ?_ }
  · rw [more]
    exact List.nodup_cons.mpr ⟨fun old => Nat.lt_irrefl _ (sound.below _ old), sound.apart⟩
  · rw [more]
    intro call member
    rcases List.mem_cons.mp member with rfl | old
    · exact Nat.lt_succ_self _
    · exact Nat.lt_succ_of_lt (sound.below call old)
  · exact fresh
  · intro context nothing
    cases nothing
  · intro call nothing
    rcases nothing with nothing | nothing <;> cases nothing

/-- The client goes on without touching a context. -/
theorem handed {hand : Client} (same : inHand hand = inHand s.client)
    (stamped : ∀ context, hand = .stamped context → context.channelSeq = wireSeq context.call)
    (queued : ∀ call, hand = .queued call ∨ hand = .sent call → s.Known call) :
    Sound { s with client := hand } where
  apart := by
    change (inHand hand ++ s.waiting.map Context.call ++ s.invoked.map Prod.fst).Nodup
    rw [same]
    exact sound.apart
  below := by
    change ∀ call ∈ inHand hand ++ s.waiting.map Context.call ++ s.invoked.map Prod.fst, _
    rw [same]
    exact sound.below
  short := sound.short
  stamped := stamped
  seqs := sound.seqs
  queued := queued
  returned := sound.returned
  transmitted := sound.transmitted
  delivered := sound.delivered
  taken := sound.taken
  replied := sound.replied
  answers := sound.answers

theorem enqueued (hand : s.client = .stamped context) :
    Sound { s with toLstnr := s.toLstnr ++ [context], client := .queued context.call } := by
  generalize enqueued : ({ s with
    toLstnr := s.toLstnr ++ [context], client := .queued context.call } : AsyncClient) = t
  have moved : t.calls.Perm s.calls := by
    rw [← enqueued]
    simp only [calls, inHand, hand, waiting, List.map_append, List.map_cons, List.map_nil,
      List.nil_append]
    refine List.Perm.append_right _ ?_
    rw [← List.append_assoc]
    exact List.Perm.append_right _ List.perm_append_comm
  have grown : ∀ call, s.Known call → t.Known call := by
    intro call known
    rw [← enqueued]
    refine known.imp_left fun waits => ?_
    simp only [waiting, List.map_append, List.mem_append] at waits ⊢
    rcases waits with ring | pending
    · exact Or.inl (Or.inl ring)
    · exact Or.inr pending
  subst enqueued
  refine
    { apart := moved.nodup_iff.mpr sound.apart
      below := fun call member => sound.below call (moved.mem_iff.mp member)
      short := sound.short
      stamped := fun _ => nofun
      seqs := ?_
      queued := ?_
      returned := fun call member => grown call (sound.returned call member)
      transmitted := fun call member => grown call (sound.transmitted call member)
      delivered := sound.delivered
      taken := sound.taken
      replied := sound.replied
      answers := sound.answers }
  · intro other waits
    simp only [waiting, List.append_assoc, List.mem_append, List.mem_singleton] at waits
    rcases waits with ring | rfl | pending
    · exact sound.seqs other (List.mem_append_left _ ring)
    · exact sound.stamped other hand
    · exact sound.seqs other (List.mem_append_right _ pending)
  · rintro call (queued | nothing)
    · cases queued
      refine Or.inl ?_
      simp [waiting]
    · cases nothing

theorem clientTurn {sent : Bool} (taken : s.clientTurn sent = some s') : Sound s' := by
  unfold AsyncClient.clientTurn at taken
  split at taken
  · cases taken
  · rename_i call hand
    cases taken
    refine sound.handed (by rw [hand]; rfl) ?_ ?_
    · intro context stamped
      cases stamped
      rfl
    · rintro call (nothing | nothing) <;> cases nothing
  · rename_i context hand
    cases taken
    exact sound.enqueued hand
  · rename_i call hand
    cases taken
    have known := sound.queued call (Or.inl hand)
    have goesOn : Sound { s with client := .sent call } := by
      refine sound.handed (by rw [hand]; rfl) (fun _ => nofun) ?_
      rintro other (nothing | sent)
      · cases nothing
      · cases sent
        exact known
    cases sent with
    | false => exact goesOn
    | true =>
      refine { goesOn with transmitted := ?_, delivered := ?_ }
      · intro other member
        rcases List.mem_append.mp member with old | new
        · exact sound.transmitted other old
        · cases List.mem_singleton.mp new
          exact known
      · intro p arrived
        obtain ⟨other, ok, response, member⟩ := sound.delivered p arrived
        exact ⟨other, ok, response, List.mem_append_left _ member⟩
  · rename_i call hand
    cases taken
    have known := sound.queued call (Or.inr hand)
    have goesOn : Sound { s with client := .idle } := by
      refine sound.handed (by rw [hand]; rfl) (fun _ => nofun) ?_
      rintro other (nothing | nothing) <;> cases nothing
    refine { goesOn with returned := ?_ }
    intro other member
    rcases List.mem_append.mp member with old | new
    · exact sound.returned other old
    · cases List.mem_singleton.mp new
      exact known

/-! The listener's steps. -/

variable {rest : List Context}

/-- A context drained from the ring goes to the map: none there has its number. -/
theorem insert_perm (ring : s.toLstnr = context :: rest) :
    (insert s.pendresponseMap context).Perm (context :: s.pendresponseMap) := by
  have apart : (s.waiting.map Context.call).Nodup :=
    (List.nodup_append.mp (List.nodup_append.mp sound.apart).1).2.1
  have head : context ∈ s.waiting := by simp [waiting, ring]
  have fresh : insert s.pendresponseMap context =
      s.pendresponseMap.orderedInsert (fun a b => a.channelSeq ≤ b.channelSeq) context := by
    refine if_neg fun found => ?_
    obtain ⟨other, pending, same⟩ := List.any_eq_true.mp found
    have waits : other ∈ s.waiting := List.mem_append_right _ pending
    have equal : other.call = context.call :=
      sound.call_eq waits (Or.inl (List.mem_map_of_mem head))
        ((of_decide_eq_true same).trans (sound.seqs context head))
    rw [waiting, ring, List.cons_append, List.map_cons] at apart
    refine (List.nodup_cons.mp apart).1 ?_
    rw [← equal]
    exact List.mem_map_of_mem (List.mem_append_right _ pending)
  rw [fresh]
  exact List.perm_orderedInsert _ _ _

theorem drained_waiting (ring : s.toLstnr = context :: rest) :
    (rest ++ insert s.pendresponseMap context).Perm s.waiting := by
  rw [waiting, ring]
  exact ((sound.insert_perm ring).append_left rest).trans List.perm_middle

theorem drain (ring : s.toLstnr = context :: rest) :
    Sound { s with toLstnr := rest, pendresponseMap := insert s.pendresponseMap context } := by
  have moved := sound.drained_waiting ring
  have places : (inHand s.client ++ (rest ++ insert s.pendresponseMap context).map Context.call ++
      s.invoked.map Prod.fst).Perm s.calls :=
    ((moved.map Context.call).append_left _).append_right _
  have kept : ∀ call, s.Known call →
      ({ s with toLstnr := rest,
                pendresponseMap := insert s.pendresponseMap context } : AsyncClient).Known call :=
    fun call known => known.imp_left fun waits => (moved.map Context.call).mem_iff.mpr waits
  exact
    { apart := places.nodup_iff.mpr sound.apart
      below := fun call member => sound.below call (places.mem_iff.mp member)
      short := sound.short
      stamped := sound.stamped
      seqs := fun other waits => sound.seqs other (moved.mem_iff.mp waits)
      queued := fun call hands => kept call (sound.queued call hands)
      returned := fun call member => kept call (sound.returned call member)
      transmitted := fun call member => kept call (sound.transmitted call member)
      delivered := sound.delivered
      taken := by
        intro packets busy p member
        obtain ⟨call, ok, response, drained⟩ := sound.taken packets busy p member
        refine ⟨call, ok, response, drained.imp_left fun pending => ?_⟩
        change call ∈ (insert s.pendresponseMap context).map Context.call
        rw [((sound.insert_perm ring).map Context.call).mem_iff]
        exact List.mem_cons_of_mem _ pending
      replied := sound.replied
      answers := sound.answers }

/-- The listener's place changes, and it holds packets it can answer. -/
theorem moved {listener : Listener} {rounds : Nat}
    (taken : ∀ rest, listener = .packets rest → ∀ p ∈ rest, ∃ call ok, p = .response call ok ∧
      s.Drained call) : Sound { s with listener := listener, rounds := rounds } :=
  { sound with taken := taken }

variable {ok : Bool}

/-- A context leaves the map with the response to its call. -/
theorem answered (pending : context ∈ s.pendresponseMap) :
    Sound ({ s with received := s.received ++ [(context.call, ok)] }.settle context (.ofReply ok)) := by
  generalize settled : ({ s with received := s.received ++ [(context.call, ok)] } :
    AsyncClient).settle context (.ofReply ok) = t
  have out : s.pendresponseMap.Perm (context :: s.pendresponseMap.erase context) :=
    List.perm_cons_erase pending
  have places : t.calls.Perm s.calls := by
    subst settled
    simp only [calls, waiting, settle, List.map_append, List.map_cons, List.map_nil,
      List.append_assoc]
    refine List.Perm.append_left _ (List.Perm.append_left _ ?_)
    refine List.Perm.trans ?_ ((out.symm.map Context.call).append_right _)
    rw [List.map_cons, List.cons_append, ← List.append_assoc]
    exact List.perm_append_singleton _ _
  have drained : ∀ call, s.Drained call → t.Drained call := by
    intro call drained
    subst settled
    rcases drained with member | done
    · rcases List.mem_cons.mp ((out.map Context.call).mem_iff.mp member) with rfl | other
      · exact Or.inr (by simp [settle])
      · exact Or.inl other
    · exact Or.inr (by simp only [settle, List.map_append, List.mem_append]; exact Or.inl done)
  have kept : ∀ call, s.Known call → t.Known call := by
    intro call known
    rcases known with waits | done
    · rw [waiting, List.map_append] at waits
      rcases List.mem_append.mp waits with ring | member
      · refine Or.inl ?_
        subst settled
        simp only [waiting, settle, List.map_append, List.mem_append]
        exact Or.inl ring
      · exact (drained call (Or.inl member)).known
    · exact (drained call (Or.inr done)).known
  have numbers : t.channelAseq = s.channelAseq := by rw [← settled]; rfl
  refine
    { apart := places.nodup_iff.mpr sound.apart
      below := fun call member => numbers ▸ sound.below call (places.mem_iff.mp member)
      short := numbers ▸ sound.short
      stamped := by subst settled; exact sound.stamped
      seqs := ?_
      queued := fun call hands => kept call (sound.queued call (by subst settled; exact hands))
      returned := fun call member => kept call (sound.returned call (by subst settled; exact member))
      transmitted := fun call member =>
        kept call (sound.transmitted call (by subst settled; exact member))
      delivered := by subst settled; exact sound.delivered
      taken := ?_
      replied := ?_
      answers := ?_ }
  · subst settled
    intro other waits
    refine sound.seqs other ?_
    simp only [waiting, settle] at waits ⊢
    rcases List.mem_append.mp waits with ring | left
    · exact List.mem_append_left _ ring
    · exact List.mem_append_right _ (List.mem_of_mem_erase left)
  · intro rest busy p member
    obtain ⟨call, ok', response, answerable⟩ :=
      sound.taken rest (by subst settled; exact busy) p member
    exact ⟨call, ok', response, drained call answerable⟩
  · subst settled
    intro p member
    rcases List.mem_append.mp member with old | new
    · exact List.mem_append_left _ (sound.replied p old)
    · cases List.mem_singleton.mp new
      exact List.mem_append_right _ (List.mem_singleton_self _)
  · subst settled
    intro p member
    simp only [settle, List.map_append, List.mem_append]
    rcases List.mem_append.mp member with old | new
    · exact ⟨Or.inl (sound.answers p old).1, (sound.answers p old).2⟩
    · cases List.mem_singleton.mp new
      refine ⟨Or.inr (by simp), ?_⟩
      change CallbackCode.ofReply ok ≠ .timedout
      cases ok <;> decide

theorem handle (drained : s.Drained call) : Sound (s.handle call ok) := by
  have known := drained.known
  unfold AsyncClient.handle
  split
  · rename_i context found
    have pending := List.mem_of_find?_eq_some found
    have same : context.channelSeq = wireSeq call := by
      have := List.find?_some found
      simpa using this
    have waits : context ∈ s.waiting := List.mem_append_right _ pending
    obtain rfl : context.call = call := sound.call_eq waits known same
    -- a pending call has no callback yet, so no response was received
    have unanswered : context.call ∉ s.invoked.map Prod.fst := fun done =>
      (List.nodup_append.mp sound.apart).2.2 _
        (List.mem_append_right _ (List.mem_map_of_mem waits)) _ done rfl
    have first : context.call ∉ s.received.map Prod.fst := by
      intro heard
      obtain ⟨p, member, named⟩ := List.mem_map.mp heard
      exact unanswered (named ▸ List.mem_map_of_mem (sound.replied p member))
    have noted : s.note context.call ok =
        { s with received := s.received ++ [(context.call, ok)] } := by
      refine if_neg ?_
      rintro (late | again)
      · exact unanswered (List.mem_map_of_mem late)
      · exact first again
    rw [noted]
    exact sound.answered pending
  · rename_i absent
    have done : call ∈ s.invoked.map Prod.fst := by
      refine drained.resolve_left fun pending => ?_
      obtain ⟨context, member, rfl⟩ := List.mem_map.mp pending
      have missing := List.find?_eq_none.mp absent context member
      exact missing (by simpa using sound.seqs context (List.mem_append_right _ member))
    have noted : s.note call ok = s := by
      obtain ⟨p, member, rfl⟩ := List.mem_map.mp done
      exact if_pos (Or.inr (sound.answers p member).1)
    rw [noted]
    exact sound

theorem listenerTurn {count : Nat} (ready : s.Ready count)
    (taken : s.listenerTurn count = some s') : Sound s' := by
  unfold AsyncClient.listenerTurn at taken
  split at taken
  · split at taken
    · rename_i context rest ring
      cases taken
      exact sound.drain ring
    · cases taken
      exact sound.moved fun _ => nofun
  · rename_i place
    rw [Ready, place] at ready
    split at taken
    · cases taken
      refine { sound with delivered := ?_, taken := ?_ }
      · exact fun p later => sound.delivered p (List.mem_of_mem_drop later)
      · intro rest packets p member
        cases packets
        obtain ⟨call, ok, rfl, sent⟩ := sound.delivered p (List.mem_of_mem_take member)
        refine ⟨call, ok, rfl, ?_⟩
        refine (sound.transmitted call sent).imp_left fun waits => ?_
        rw [waiting, List.map_append] at waits
        refine (List.mem_append.mp waits).resolve_left fun ring => ?_
        obtain ⟨context, undrained, rfl⟩ := List.mem_map.mp ring
        exact ready context undrained _ member ok rfl
    · cases taken
  · rename_i call ok rest place
    cases taken
    obtain ⟨call', ok', response, drained⟩ := sound.taken _ place _ List.mem_cons_self
    cases response
    have handled : Sound (s.handle call ok) := sound.handle drained
    refine { handled with taken := ?_ }
    intro later packets p member
    cases packets
    have busy : (s.handle call ok).listener = .packets (.response call ok :: rest) := by
      rw [← place]
      unfold AsyncClient.handle note settle
      split <;> split <;> rfl
    exact handled.taken _ busy p (List.mem_cons_of_mem _ member)
  · rename_i place
    obtain ⟨call, ok, response, -⟩ := sound.taken _ place _ List.mem_cons_self
    cases response
  · cases taken
    exact sound.moved fun _ => nofun
  · rename_i context rest place
    rw [Ready, place] at ready
    rw [if_neg (Nat.not_le.mpr ready)] at taken
    cases taken
    exact sound.moved fun _ => nofun
  · cases taken
    exact sound.moved fun _ => nofun
  · cases taken
  · cases taken

theorem step {l : AsyncLabel} (orderly : s.Orderly l)
    (taken : s.step maxInflight l = some s') : Sound s' := by
  cases l with
  | tick usec =>
    cases taken
    exact { sound with }
  | call coreMask =>
    rw [AsyncClient.step] at taken
    split at taken
    · rename_i idle
      cases taken
      exact sound.makeRpcAsync idle orderly.1 orderly.2
    · cases taken
  | client sent => exact sound.clientTurn taken
  | deliver packet =>
    cases packet with
    | response call ok =>
      rw [AsyncClient.step] at taken
      split at taken
      · rename_i sent
        cases taken
        refine { sound with delivered := ?_ }
        intro p arrived
        rcases List.mem_append.mp arrived with old | new
        · exact sound.delivered p old
        · exact ⟨call, ok, List.mem_singleton.mp new, sent⟩
      · cases taken
    | junk => exact orderly.elim
  | listen count => exact sound.listenerTurn orderly taken

omit sound in
theorem run (run : Path (AsyncClient.step maxInflight) Orderly .init s) : Sound s :=
  run.keeps init fun _ _ _ sound orderly taken => sound.step orderly taken

end Sound

/-! ## Deadlines -/

/-- The listener has yet to pass the context in this round. -/
def Ahead (s : AsyncClient) (context : Context) : Prop :=
  match s.listener with
  | .drain => context ∈ s.waiting
  | .burst => context ∈ s.pendresponseMap
  | .packets _ => context ∈ s.pendresponseMap
  | .sweep rest => context ∈ rest
  | .stopped => False
  | .undefined => False

/-- The call was called back, or its timed out context is ahead in the round. -/
def Due (s : AsyncClient) (call round : Nat) : Prop :=
  call ∈ s.invoked.map Prod.fst ∨
    s.rounds = round ∧ ∃ context, context.call = call ∧
      context.timestamp + asyncTimeout ≤ s.clock ∧ s.Ahead context

section Deadlines

variable {s s' : AsyncClient} {call round : Nat}

/-- A step that calls nothing back and ends no round: what was ahead has to stay so. -/
theorem Due.move (due : s.Due call round) (invoked : s'.invoked = s.invoked)
    (clock : s.clock ≤ s'.clock) (rounds : s'.rounds = s.rounds)
    (stays : ∀ context, s.Ahead context → s'.Ahead context) : s'.Due call round := by
  rcases due with done | ⟨same, context, named, late, ahead⟩
  · exact Or.inl (invoked ▸ done)
  · exact Or.inr ⟨rounds.trans same, context, named, late.trans clock, stays context ahead⟩

/-- A step that only adds to the ring and lets time pass. -/
theorem Due.of_same (due : s.Due call round) (clock : s.clock ≤ s'.clock)
    (ring : ∀ context ∈ s.toLstnr, context ∈ s'.toLstnr)
    (pending : s'.pendresponseMap = s.pendresponseMap) (listener : s'.listener = s.listener)
    (rounds : s'.rounds = s.rounds) (invoked : s'.invoked = s.invoked) : s'.Due call round := by
  refine due.move invoked clock rounds fun context ahead => ?_
  unfold Ahead at ahead ⊢
  rw [listener]
  cases place : s.listener <;> rw [place] at ahead
  · rcases List.mem_append.mp ahead with inRing | inMap
    · exact List.mem_append_left _ (ring context inRing)
    · exact List.mem_append_right _ (pending ▸ inMap)
  · exact pending ▸ ahead
  · exact pending ▸ ahead
  · exact ahead
  · exact ahead
  · exact ahead

theorem Due.handle (due : s.Due call round) {heard : Nat} {ok : Bool}
    {rest : List Packet} (place : s.listener = .packets (.response heard ok :: rest)) :
    ({ s.handle heard ok with listener := .packets rest } : AsyncClient).Due call round := by
  have noted : (s.note heard ok).invoked = s.invoked ∧
      (s.note heard ok).pendresponseMap = s.pendresponseMap ∧
      (s.note heard ok).clock = s.clock ∧ (s.note heard ok).rounds = s.rounds := by
    unfold note
    split <;> exact ⟨rfl, rfl, rfl, rfl⟩
  obtain ⟨invoked, pending, clock, rounds⟩ := noted
  unfold AsyncClient.handle
  split
  · rename_i found _
    rcases due with done | ⟨same, context, named, late, ahead⟩
    · refine Or.inl ?_
      simp only [settle, invoked, List.map_append, List.mem_append]
      exact Or.inl done
    · by_cases settled : context = found
      · refine Or.inl ?_
        subst settled named
        simp [settle]
      · refine Or.inr ⟨rounds.trans same, context, named, clock.symm ▸ late, ?_⟩
        rw [Ahead, place] at ahead
        change context ∈ (s.note heard ok).pendresponseMap.erase found
        rw [pending]
        exact (List.mem_erase_of_ne settled).mpr ahead
  · refine due.move invoked clock.ge rounds fun context ahead => ?_
    rw [Ahead, place] at ahead
    change context ∈ (s.note heard ok).pendresponseMap
    rw [pending]
    exact ahead

theorem Due.listenerTurn (due : s.Due call round) (sound : Sound s) {count : Nat}
    (ready : s.Ready count) (taken : s.listenerTurn count = some s') : s'.Due call round := by
  unfold AsyncClient.listenerTurn at taken
  split at taken
  · rename_i place
    split at taken
    · rename_i head rest ring
      cases taken
      refine due.move rfl le_rfl rfl fun context ahead => ?_
      rw [Ahead, place] at ahead
      simp only [Ahead, place]
      exact (sound.drained_waiting ring).mem_iff.mpr ahead
    · rename_i empty
      cases taken
      refine due.move rfl le_rfl rfl fun context ahead => ?_
      rw [Ahead, place, waiting, empty] at ahead
      exact ahead
  · rename_i place
    split at taken
    · cases taken
      refine due.move rfl le_rfl rfl fun context ahead => ?_
      rw [Ahead, place] at ahead
      exact ahead
    · cases taken
  · rename_i heard ok rest place
    cases taken
    exact due.handle place
  · rename_i place
    obtain ⟨_, _, response, -⟩ := sound.taken _ place _ List.mem_cons_self
    cases response
  · rename_i place
    cases taken
    refine due.move rfl le_rfl rfl fun context ahead => ?_
    rw [Ahead, place] at ahead
    exact ahead
  · rename_i next rest place
    rw [Ready, place] at ready
    rw [if_neg (Nat.not_le.mpr ready)] at taken
    cases taken
    rcases due with done | ⟨same, context, named, late, ahead⟩
    · exact Or.inl done
    · refine Or.inr ⟨same, context, named, late, ?_⟩
      rw [Ahead, place] at ahead
      rcases List.mem_cons.mp ahead with rfl | later
      · exact absurd ready (by omega)
      · exact later
  · rename_i place
    cases taken
    rcases due with done | ⟨same, context, named, late, ahead⟩
    · exact Or.inl done
    · rw [Ahead, place] at ahead
      cases ahead
  · cases taken
  · cases taken

variable {maxInflight : Nat}

theorem Due.step (due : s.Due call round) (sound : Sound s) {l : AsyncLabel}
    (orderly : s.Orderly l) (taken : s.step maxInflight l = some s') : s'.Due call round := by
  cases l with
  | tick usec =>
    cases taken
    exact due.of_same (Nat.le_add_right _ _) (fun _ => id) rfl rfl rfl rfl
  | call coreMask =>
    rw [AsyncClient.step] at taken
    split at taken
    · cases taken
      unfold AsyncClient.makeRpcAsync
      split
      · exact due
      · split <;> exact due.of_same (Nat.le_refl _) (fun _ => id) rfl rfl rfl rfl
    · cases taken
  | client sent =>
    simp only [AsyncClient.step, AsyncClient.clientTurn] at taken
    split at taken
    · cases taken
    · cases taken
      exact due.of_same (Nat.le_refl _) (fun _ => id) rfl rfl rfl rfl
    · cases taken
      exact due.of_same (Nat.le_refl _) (fun _ => List.mem_append_left _) rfl rfl rfl rfl
    · cases taken
      exact due.of_same (Nat.le_refl _) (fun _ => id) rfl rfl rfl rfl
    · cases taken
      exact due.of_same (Nat.le_refl _) (fun _ => id) rfl rfl rfl rfl
  | deliver packet =>
    cases packet with
    | response heard ok =>
      rw [AsyncClient.step] at taken
      split at taken
      · cases taken
        exact due.of_same (Nat.le_refl _) (fun _ => id) rfl rfl rfl rfl
      · cases taken
    | junk => exact orderly.elim
  | listen count => exact due.listenerTurn sound orderly taken

/-- A deadline that has passed is met in the next round. -/
theorem met_after_round (sound : Sound s)
    (onward : Path (AsyncClient.step maxInflight) Orderly s s') (start : s.listener = .drain)
    (later : s.rounds < s'.rounds) (known : s.Known call) (overdue : s.Overdue call) :
    call ∈ s'.invoked.map Prod.fst := by
  have due : s.Due call s.rounds := by
    rcases known with waits | done
    · obtain ⟨context, member, rfl⟩ := List.mem_map.mp waits
      refine Or.inr ⟨rfl, context, rfl, overdue context member rfl, ?_⟩
      rw [Ahead, start]
      exact member
    · exact Or.inl done
  have kept : Sound s' ∧ s'.Due call s.rounds :=
    onward.keeps (I := fun t => Sound t ∧ t.Due call s.rounds) ⟨sound, due⟩
      fun _ _ _ kept orderly taken => ⟨kept.1.step orderly taken, kept.2.step kept.1 orderly taken⟩
  rcases kept.2 with done | ⟨same, -⟩
  · exact done
  · exact absurd same (Nat.ne_of_gt later)

/-! ## Callbacks -/

/-- One callback for a call whose number is recorded once. -/
theorem invocations_eq {code : CallbackCode} (once : (s.invoked.map Prod.fst).Nodup)
    (member : (call, code) ∈ s.invoked) : s.invocations call = [code] := by
  unfold invocations
  generalize s.invoked = l at once member
  induction l with
  | nil => cases member
  | cons p l ih =>
    obtain ⟨fresh, once⟩ := List.nodup_cons.mp once
    rcases List.mem_cons.mp member with rfl | later
    · have others : (l.filterMap fun p => if p.1 = call then some p.2 else none) = [] := by
        refine List.filterMap_eq_nil_iff.mpr fun q old => if_neg ?_
        rintro rfl
        exact fresh (List.mem_map.mpr ⟨q, old, rfl⟩)
      simp [others]
    · have other : p.1 ≠ call := by
        rintro rfl
        exact fresh (List.mem_map.mpr ⟨_, later, rfl⟩)
      rw [List.filterMap_cons, if_neg other]
      exact ih once later

theorem invocations_nil (never : call ∉ s.invoked.map Prod.fst) : s.invocations call = [] := by
  refine List.filterMap_eq_nil_iff.mpr fun q old => if_neg ?_
  rintro rfl
  exact never (List.mem_map_of_mem old)

theorem Sound.once (sound : Sound s) : (s.invoked.map Prod.fst).Nodup :=
  (List.nodup_append.mp sound.apart).2.1

theorem Sound.served (sound : Sound s) (done : call ∈ s.invoked.map Prod.fst) :
    ∃ code, s.invocations call = [code] := by
  obtain ⟨⟨call, code⟩, member, rfl⟩ := List.mem_map.mp done
  exact ⟨code, invocations_eq sound.once member⟩

/-- **One callback.**  However the client and its listener interleave and whenever responses arrive:
if every request names one core, the sequence numbers have not wrapped, no junk arrives, no response
is taken from the queue while its context is in the ring, and no sweep meets a timed out context,
then a call that returned 0 waits or had exactly one callback; a response that was received is what
the callback reported; and a round of the listener that starts after a call's deadline ends
after its callback. -/
theorem one_callback {maxInflight : Nat} {s : AsyncClient}
    (run : Path (AsyncClient.step maxInflight) Orderly .init s) :
    (∀ call ∈ s.returned,
      (s.invocations call = [] ∧ call ∈ s.waiting.map Context.call) ∨
        ∃ code, s.invocations call = [code]) ∧
    (∀ p ∈ s.received, s.invocations p.1 = [.ofReply p.2]) ∧
    ∀ s', Path (AsyncClient.step maxInflight) Orderly s s' → s.listener = .drain →
      s.rounds < s'.rounds → ∀ call ∈ s.returned, s.Overdue call →
        ∃ code, s'.invocations call = [code] := by
  have sound := Sound.run run
  refine ⟨fun call member => ?_, fun p member => ?_, ?_⟩
  · by_cases done : call ∈ s.invoked.map Prod.fst
    · exact Or.inr (sound.served done)
    · exact Or.inl ⟨invocations_nil done, (sound.returned call member).resolve_right done⟩
  · exact invocations_eq sound.once (sound.replied p member)
  · intro s' onward start later call member overdue
    have done := met_after_round sound onward start later (sound.returned call member) overdue
    exact (Sound.run (run.trans onward)).served done

end Deadlines

/-- A request to one core: stamped, put in the ring, transmitted, and returned. -/
def request : List AsyncLabel := [.call 1, .client true, .client true, .client true, .client true]

/-- A request whose response comes after its context was drained. -/
theorem one_callback_reply : ∃ s : AsyncClient,
    s.returned = [0] ∧ s.received = [(0, true)] ∧
    ((∀ call ∈ s.returned,
      (s.invocations call = [] ∧ call ∈ s.waiting.map Context.call) ∨
        ∃ code, s.invocations call = [code]) ∧
    (∀ p ∈ s.received, s.invocations p.1 = [.ofReply p.2]) ∧
    ∀ s', Path (AsyncClient.step 8) Orderly s s' → s.listener = .drain →
      s.rounds < s'.rounds → ∀ call ∈ s.returned, s.Overdue call →
        ∃ code, s'.invocations call = [code]) := by
  have ran : ∃ s ∈ exec (AsyncClient.step 8) Orderly .init
      [request, [.deliver (.response 0 true), .listen 0, .listen 0, .listen 1, .listen 0]].flatten,
      s.returned = [0] ∧ s.received = [(0, true)] := by
    decide +kernel
  obtain ⟨s, run, returned, received⟩ := Path.exists_of_exec ran
  exact ⟨s, returned, received, one_callback run⟩

/-- The ring is drained, then the request is made and answered, then the burst is taken: the response
is dropped, and half a second later the callback reports a timeout. -/
theorem response_overtakes : ∃ s : AsyncClient,
    Path (AsyncClient.step 8) anyStep .init s ∧ s.returned = [0] ∧ s.received = [(0, true)] ∧
      s.invocations 0 = [.timedout] := by
  refine Path.exists_of_exec (l := [[.listen 0], request, [.deliver (.response 0 true), .listen 1,
    .listen 0, .listen 0, .listen 0, .tick asyncTimeout, .listen 0, .listen 0, .listen 0, .listen 0,
    .listen 0]].flatten) ?_
  decide +kernel

end AsyncClient

end Cyclone.Core
