/-
# Core.Inflight — admission control

`accept` drops a packet whose client has `MAX_INFLIGHT` RPCs under way, by a counter for each client.
The counter goes up when an RPC is handed to a core: at once for a read or a stability check, but
for an update only when the burst is over and `__raft_logentry_offer_batch` walks the entries.  It
goes down when the executor is done with the RPC, whatever became of its entry.

The machine has the raft thread packet by packet and RPC by RPC, so that executors finish in between;
the cores may take their RPCs in any order.  In every run the counter is, as a `char`, the number of
RPCs handed out and not finished (`inflight_balanced`).  It is a bound only as long as no burst
brings more than the counter leaves room for (`inflight_bounded`): a burst of 13 packets of one
client passes the check 13 times (`inflight_exceeded`).
-/
import Cyclone.Core.Walk
import Cyclone.Core.Executor
import Mathlib.Data.List.Flatten
import Mathlib.Data.List.Perm.Basic

namespace Cyclone.Core.Inflight

open Cyclone.Theory

set_option autoImplicit false

/-! ## The machine -/

/-- `MAX_INFLIGHT`. -/
def maxInflight : Nat := 12

/-- A `char`. -/
def toChar (x : Int) : Int := (x + 128) % 256 - 128

/-- `add_inflight` and `remove_inflight`. -/
def bump (inflight : Int → Int) (client delta : Int) : Int → Int :=
  Function.update inflight client (toChar (inflight client + delta))

/-- An RPC handed to a core, with the number of the log entry it came in. -/
structure Job where
  header : List UInt8
  core : Int
  entry : Option Nat

/-- An entry that is offered; the RPCs of an `ADD_NODE` entry are not handed out. -/
structure Offered where
  issues : Bool
  segments : List (Buffer UInt8)

/-- What the raft thread is at. -/
inductive Doing where
  | idle
  | accepting (multicore : Bool) (rest : List Arrival) (messages : List Message)
  | offering (entries : List Offered) (point : Int)

/-- `serial` is the number of the next entry offered, `rep` the verdicts in the entries' `wal_entry_t`,
`crossed` the ring `to_quorums`. -/
structure State where
  currentTerm : Int
  leader : Bool
  inflight : Int → Int
  jobs : List Job
  crossed : List Arrival
  doing : Doing
  serial : Nat
  rep : Nat → Rep

/-- `append` is an entry that does not come from `accept`: the kicker of a new leader, or what a
leader sent; `verdict` is the application or the truncation of an entry. -/
inductive Act where
  | snapshot (currentTerm : Int) (leader : Bool)
  | burst (packets : List Arrival)
  | transactions
  | look
  | hand (taken : Bool)
  | append (entries : List Offered)
  | walk
  | verdict (entry : Nat) (rep : Rep)
  | finish (place : Nat)

/-- `exec` spins until the entry has a verdict. -/
def waits (header : List UInt8) : Bool :=
  rpcCode header = 2 ∨ rpcCode header ≠ 0 ∧ rpcFlags header &&& 1 = 0

namespace State

/-- An RPC goes into the ring of a core. -/
def issue (s : State) (adds : Bool) (job : Job) : State :=
  { s with
    inflight := if adds then bump s.inflight (clientId job.header) 1 else s.inflight
    jobs := s.jobs ++ [job] }

/-- An RPC of an entry goes to each of these cores. -/
def issueAll (s : State) (header : List UInt8) (cores : List Int) : State :=
  cores.foldl (fun s core => s.issue (counts header core) ⟨header, core, some s.serial⟩) s

/-- The RPC at which the walk stands. -/
def issueRpc (s : State) (entry : Offered) (header : List UInt8) : State :=
  if entry.issues then
    s.issueAll header
      ((coresOf (coreMask header)).filter fun core => coreToQuorum core = 0)
  else s

/-- The next packet of the burst. -/
def lookAt (executorThreads : Nat) (s : State) (multicore : Bool) (a : Arrival)
    (rest : List Arrival) (messages : List Message) : Option State :=
  let a := { a with busy := decide (maxInflight ≤ s.inflight (clientId a.header)) }
  (acceptOne multicore s.currentTerm executorThreads messages a).map fun messages =>
    let s := { s with doing := .accepting multicore rest messages }
    if handsOut multicore s.currentTerm s.leader a then
      s.issue true ⟨a.header, firstCore (coreMask a.header), none⟩
    else if multicore = false ∧ a.passes ∧ ¬ a.busy ∧ isMulticore a.header then
      { s with crossed := s.crossed ++ [a] }
    else s

/-- The walk goes on by an RPC, or to the next entry. -/
def walkOn (s : State) : List Offered → Int → State
  | [], _ => { s with doing := .idle }
  | entry :: entries, point =>
    match seek entry.segments point with
    | none => { s with serial := s.serial + 1, doing := .offering entries 0 }
    | some (segment, segments, point) =>
      { s.issueRpc entry (segment.read point sizeofRpc) with
        doing := .offering (⟨entry.issues, segment :: segments⟩ :: entries)
          (segment.next sizeofRpc payloadSz point) }

/-- The executor is done with an RPC. -/
def complete (s : State) (place : Nat) (job : Job) : State :=
  { s with
    inflight :=
      if counts job.header job.core then bump s.inflight (clientId job.header) (-1) else s.inflight
    jobs := s.jobs.eraseIdx place }

/-- The RPC need not wait, or its entry has a verdict. -/
def mayFinish (s : State) (job : Job) : Bool :=
  match job.entry with
  | none => true
  | some entry => waits job.header → s.rep entry ≠ .unknown

def step (executorThreads : Nat) (s : State) (act : Act) : Option State :=
  match act, s.doing with
  | .snapshot currentTerm leader, .idle =>
    some { s with currentTerm := currentTerm, leader := leader }
  | .burst packets, .idle =>
    if packets.length ≤ Raft.pktBurst then some { s with doing := .accepting false packets [] }
    else none
  | .transactions, .idle =>
    some { s with
      doing := .accepting true (s.crossed.take Raft.pktBurst) []
      crossed := s.crossed.drop Raft.pktBurst }
  | .look, .accepting multicore (a :: rest) messages =>
    s.lookAt executorThreads multicore a rest messages
  | .hand taken, .accepting _ [] messages =>
    some { s with
      doing :=
        if taken then .offering (messages.map fun msg => ⟨true, msg.segments msg.chain⟩) 0
        else .idle }
  | .append entries, .idle => some { s with doing := .offering entries 0 }
  | .walk, .offering entries point => some (s.walkOn entries point)
  | .verdict entry rep, _ =>
    if entry < s.serial then some { s with rep := Function.update s.rep entry rep } else none
  | .finish place, _ =>
    match s.jobs[place]? with
    | some job => if s.mayFinish job then some (s.complete place job) else none
    | none => none
  | _, _ => none

/-- Nothing under way, and the counters 0. -/
structure Fresh (s : State) : Prop where
  inflight : s.inflight = fun _ => 0
  jobs : s.jobs = []
  crossed : s.crossed = []
  doing : s.doing = .idle
  rep : ∀ entry, s.serial ≤ entry → s.rep entry = .unknown

end State

/-! ## The counter -/

/-- The RPCs under way that the counter of a client goes with. -/
def counted (client : Int) (jobs : List Job) : Nat :=
  jobs.countP fun job => counts job.header job.core && clientId job.header = client

/-- The counter, as a `char`. -/
def Balanced (s : State) : Prop := ∀ client, s.inflight client = toChar (counted client s.jobs)

theorem toChar_add (x delta : Int) : toChar (toChar x + delta) = toChar (x + delta) := by
  unfold toChar
  omega

theorem toChar_small {x : Int} (low : -128 ≤ x) (high : x < 128) : toChar x = x := by
  unfold toChar
  omega

theorem counted_append (client : Int) (jobs : List Job) (job : Job) :
    counted client (jobs ++ [job]) =
      counted client jobs +
        if counts job.header job.core ∧ clientId job.header = client then 1 else 0 := by
  simp [counted, List.countP_append, List.countP_singleton]

theorem counted_eraseIdx (client : Int) {jobs : List Job} {place : Nat} {job : Job}
    (at_ : jobs[place]? = some job) :
    counted client jobs =
      counted client (jobs.eraseIdx place) +
        if counts job.header job.core ∧ clientId job.header = client then 1 else 0 := by
  obtain ⟨bound, rfl⟩ := List.getElem?_eq_some_iff.mp at_
  have perm := (List.getElem_cons_eraseIdx_perm bound).countP_eq
    fun job => counts job.header job.core && clientId job.header = client
  rw [List.countP_cons] at perm
  simpa [counted] using perm.symm

section Balance

variable {s t : State}

theorem Balanced.of_eq (balanced : Balanced s) (inflight : t.inflight = s.inflight)
    (jobs : t.jobs = s.jobs) : Balanced t := by
  intro client
  rw [inflight, jobs]
  exact balanced client

variable {job : Job}

theorem Balanced.issue (balanced : Balanced s) {adds : Bool}
    (matches_ : adds = counts job.header job.core) : Balanced (s.issue adds job) := by
  intro client
  have now := balanced client
  simp only [State.issue, counted_append, ← matches_]
  cases adds with
  | false => simpa using now
  | true =>
    by_cases same : clientId job.header = client
    · subst same
      simp [bump, now, toChar_add]
    · simp [bump, same, Function.update_of_ne (Ne.symm same), now]

theorem Balanced.issueAll (balanced : Balanced s) (header : List UInt8) (cores : List Int) :
    Balanced (s.issueAll header cores) := by
  induction cores generalizing s with
  | nil => exact balanced
  | cons core cores ih => exact ih (balanced.issue rfl)

theorem Balanced.issueRpc (balanced : Balanced s) (entry : Offered) (header : List UInt8) :
    Balanced (s.issueRpc entry header) := by
  unfold State.issueRpc
  split
  · exact balanced.issueAll header _
  · exact balanced

theorem Balanced.complete (balanced : Balanced s) {place : Nat} (at_ : s.jobs[place]? = some job) :
    Balanced (s.complete place job) := by
  intro client
  have now := balanced client
  have before := counted_eraseIdx client at_
  simp only [State.complete]
  cases adds : counts job.header job.core with
  | false =>
    rw [adds] at before
    simpa [before] using now
  | true =>
    by_cases same : clientId job.header = client
    · subst same
      simp [adds] at before
      simp [bump, now, toChar_add, before]
    · simp [adds, same] at before
      simp [bump, Function.update_of_ne (Ne.symm same), now, before]

theorem handsOut_counts (header : List UInt8) : counts header (firstCore (coreMask header)) = true := by
  simp [counts]

variable {executorThreads : Nat}

theorem Balanced.lookAt (balanced : Balanced s) {multicore : Bool} {a : Arrival}
    {rest : List Arrival} {messages : List Message}
    (ran : s.lookAt executorThreads multicore a rest messages = some t) : Balanced t := by
  unfold State.lookAt at ran
  obtain ⟨messages', -, rfl⟩ := Option.map_eq_some_iff.mp ran
  dsimp only
  split
  · exact (balanced.of_eq rfl rfl).issue (handsOut_counts _).symm
  · split
    · exact balanced.of_eq rfl rfl
    · exact balanced.of_eq rfl rfl

theorem Balanced.walkOn (balanced : Balanced s) (entries : List Offered) (point : Int) :
    Balanced (s.walkOn entries point) := by
  cases entries with
  | nil => exact balanced
  | cons entry entries =>
    rw [State.walkOn]
    split
    · exact balanced.of_eq rfl rfl
    · exact (balanced.issueRpc _ _).of_eq rfl rfl

theorem Balanced.step {act : Act} (balanced : Balanced s)
    (ran : s.step executorThreads act = some t) : Balanced t := by
  unfold State.step at ran
  split at ran
  case h_1 => cases ran; exact balanced
  case h_2 =>
    split at ran
    · cases ran; exact balanced
    · cases ran
  case h_3 => cases ran; exact balanced
  case h_4 => exact balanced.lookAt ran
  case h_5 => cases ran; exact balanced
  case h_6 => cases ran; exact balanced
  case h_7 => cases ran; exact balanced.walkOn _ _
  case h_8 =>
    split at ran
    · cases ran; exact balanced
    · cases ran
  case h_9 =>
    split at ran
    · rename_i job at_
      split at ran
      · cases ran
        exact balanced.complete at_
      · cases ran
    · cases ran
  case h_10 => cases ran

theorem Balanced.fresh (fresh : s.Fresh) : Balanced s := by
  intro client
  simp [fresh.inflight, fresh.jobs, counted, toChar]

/-- In every run the counter is the number of RPCs under way that it goes with, as a `char`. -/
theorem inflight_balanced (fresh : s.Fresh) (run : Path (State.step executorThreads) anyStep s t) :
    Balanced t := by
  exact run.keeps (.fresh fresh) fun _ _ _ balanced _ ran => balanced.step ran

end Balance

/-! ## What a walk has ahead -/

/-- The headers of the RPCs the walk comes to from `point` on, if it ends within `fuel` steps. -/
def ahead : Nat → List (Buffer UInt8) → Int → Option (List (List UInt8))
  | 0, _, _ => none
  | _ + 1, [], _ => some []
  | fuel + 1, segment :: segments, point =>
    if point < segment.len then
      (ahead fuel (segment :: segments) (segment.next sizeofRpc payloadSz point)).map
        (segment.read point sizeofRpc :: ·)
    else ahead fuel segments 0

/-- The headers of the RPCs in a packet, as many as there could be with lengths of at least 0. -/
def rpcs (packet : Buffer UInt8) : Option (List (List UInt8)) := ahead (packet.len + 2) [packet] 0

def calls (packet : Buffer UInt8) : List (List UInt8) := (rpcs packet).getD []

section Ahead

variable {segment : Buffer UInt8} {segments : List (Buffer UInt8)} {point : Int}
variable {headers later : List (List UInt8)}

variable {fuel : Nat}

theorem ahead_cons {more : Nat} (here : ahead fuel [segment] point = some headers)
    (there : ahead more segments 0 = some later) :
    ∃ enough, ahead enough (segment :: segments) point = some (headers ++ later) := by
  induction fuel generalizing point headers with
  | zero => cases here
  | succ fuel ih =>
    rw [ahead] at here
    split at here
    · rename_i below
      obtain ⟨rest, from_, rfl⟩ := Option.map_eq_some_iff.mp here
      obtain ⟨enough, found⟩ := ih from_
      refine ⟨enough + 1, ?_⟩
      rw [ahead, if_pos below, found]
      rfl
    · rename_i above
      refine ⟨more + 1, ?_⟩
      rw [ahead, if_neg above, there]
      cases fuel with
      | zero => cases here
      | succ fuel =>
        cases here
        rfl

theorem rpcs_eq_some (ends : (rpcs segment).isSome) : rpcs segment = some (calls segment) := by
  obtain ⟨headers, found⟩ := Option.isSome_iff_exists.mp ends
  rw [calls, found]
  rfl

theorem ahead_of_ends (ends : ∀ segment ∈ segments, (rpcs segment).isSome) :
    ∃ fuel, ahead fuel segments 0 = some (segments.flatMap calls) := by
  induction segments with
  | nil => exact ⟨1, rfl⟩
  | cons segment segments ih =>
    obtain ⟨fuel, later⟩ := ih fun s member => ends s (List.mem_cons_of_mem _ member)
    exact ahead_cons (rpcs_eq_some (ends segment List.mem_cons_self)) later

/-- Where the walk stands when it goes on. -/
theorem ahead_seek (found : ahead fuel segments point = some headers) :
    (seek segments point = none ∧ headers = []) ∨
      ∃ segment rest p later, seek segments point = some (segment, rest, p) ∧
        headers = segment.read p sizeofRpc :: later ∧
        ∃ fuel, ahead fuel (segment :: rest) (segment.next sizeofRpc payloadSz p) = some later := by
  induction fuel generalizing segments point with
  | zero => cases found
  | succ fuel ih =>
    cases segments with
    | nil =>
      cases found
      exact .inl ⟨rfl, rfl⟩
    | cons segment segments =>
      rw [ahead] at found
      rw [seek]
      split at found
      · rename_i below
        obtain ⟨later, from_, rfl⟩ := Option.map_eq_some_iff.mp found
        exact .inr ⟨segment, segments, point, later, if_pos below, rfl, fuel, from_⟩
      · rename_i above
        rw [if_neg above]
        exact ih found

/-- The first RPC of a packet is the one whose header `accept` read. -/
theorem calls_head {a : Arrival} (ends : (rpcs a.packet).isSome) (some_ : a.packet.len ≠ 0) :
    ∃ later, calls a.packet = a.header :: later := by
  have found := rpcs_eq_some ends
  rw [rpcs, ahead, if_pos (by omega)] at found
  obtain ⟨later, -, is⟩ := Option.map_eq_some_iff.mp found
  exact ⟨later, is.symm⟩

end Ahead

/-! ## The bound -/

def Offered.issued (entry : Offered) : List (Buffer UInt8) :=
  if entry.issues then entry.segments else []

/-- The packets of a burst that may still go into the log. -/
def packetsOf (rest : List Arrival) (messages : List Message) : List (Buffer UInt8) :=
  messages.flatMap (·.chain) ++ rest.map (·.packet)

/-- The RPCs the raft thread may still hand out. -/
def Doing.Due : Doing → List (List UInt8) → Prop
  | .idle, headers => headers = []
  | .accepting multicore rest messages, headers =>
    (multicore = true → rest = []) ∧
      (∀ segment ∈ packetsOf rest messages, (rpcs segment).isSome) ∧
      headers = (packetsOf rest messages).flatMap calls
  | .offering [] _, headers => headers = []
  | .offering (entry :: entries) point, headers =>
    (∀ segment ∈ entries.flatMap Offered.issued, (rpcs segment).isSome) ∧
      ∃ here, (if entry.issues then ∃ fuel, ahead fuel entry.segments point = some here
          else here = []) ∧
        headers = here ++ (entries.flatMap Offered.issued).flatMap calls

def ofClient (client : Int) (headers : List (List UInt8)) : Nat :=
  headers.countP fun header => clientId header = client

/-- No client has more RPCs under way and ahead than it may, and all are for single cores. -/
structure Bounded (s : State) (headers : List (List UInt8)) : Prop where
  due : s.doing.Due headers
  single : ∀ header ∈ headers, isMulticore header = false
  bound : ∀ client, counted client s.jobs + ofClient client headers ≤ maxInflight
  jobs : ∀ job ∈ s.jobs, isMulticore job.header = false
  crossed : s.crossed = []

/-- The walk of each segment ends, meets RPCs for single cores only, and for no client more than the
counter leaves room for. -/
def Modest (s : State) (segments : List (Buffer UInt8)) : Prop :=
  ∀ segment ∈ segments, (rpcs segment).isSome ∧
    ∀ header ∈ calls segment, isMulticore header = false ∧
      s.inflight (clientId header) + ofClient (clientId header) (segments.flatMap calls) ≤ maxInflight

instance (s : State) (segments : List (Buffer UInt8)) : Decidable (Modest s segments) :=
  inferInstanceAs (Decidable (∀ segment ∈ segments, _ ∧ ∀ header ∈ _, _ ∧ _ ≤ _))

/-- A burst, or entries from elsewhere, are taken in only if they are modest. -/
def Act.Within (s : State) : Act → Prop
  | .burst packets => Modest s (packets.map (·.packet))
  | .append entries => Modest s (entries.flatMap Offered.issued)
  | _ => True

instance (s : State) (act : Act) : Decidable (act.Within s) :=
  match act with
  | .burst _ => inferInstanceAs (Decidable (Modest _ _))
  | .append _ => inferInstanceAs (Decidable (Modest _ _))
  | .snapshot _ _ | .transactions | .look | .hand _ | .walk | .verdict _ _ | .finish _ =>
    isTrue trivial

section Bound

variable {s t : State} {headers fewer : List (List UInt8)}

theorem ofClient_cons (client : Int) (header : List UInt8) (later : List (List UInt8)) :
    ofClient client (header :: later) =
      ofClient client later + if clientId header = client then 1 else 0 := by
  simp [ofClient, List.countP_cons]

/-- Fewer RPCs ahead. -/
theorem Bounded.shrink (bounded : Bounded s headers) (due : t.doing.Due fewer)
    (sub : fewer.Sublist headers) (jobs : t.jobs = s.jobs) (crossed : t.crossed = s.crossed) :
    Bounded t fewer where
  due := due
  single := fun header member => bounded.single header (sub.subset member)
  bound := by
    intro client
    have bound := bounded.bound client
    have less : ofClient client fewer ≤ ofClient client headers := sub.countP_le
    rw [jobs]
    omega
  jobs := jobs ▸ bounded.jobs
  crossed := crossed.trans bounded.crossed

variable {job : Job}

/-- An RPC that was ahead is handed to a core. -/
theorem Bounded.grow (bounded : Bounded s headers) (sub : (job.header :: fewer).Subperm headers)
    (due : t.doing.Due fewer) (jobs : t.jobs = s.jobs ++ [job]) (crossed : t.crossed = s.crossed) :
    Bounded t fewer where
  due := due
  single := fun header member => bounded.single header (sub.subset (List.mem_cons_of_mem _ member))
  bound := by
    intro client
    have bound := bounded.bound client
    have less : ofClient client (job.header :: fewer) ≤ ofClient client headers := sub.countP_le _
    rw [ofClient_cons] at less
    rw [jobs, counted_append]
    by_cases same : clientId job.header = client
    · rw [if_pos same] at less
      split <;> omega
    · rw [if_neg fun both => same both.2]
      omega
  jobs := by
    intro job' member
    rw [jobs] at member
    rcases List.mem_append.mp member with old | new
    · exact bounded.jobs job' old
    · rw [List.mem_singleton.mp new]
      exact bounded.single _ (sub.subset List.mem_cons_self)
  crossed := crossed.trans bounded.crossed

variable {segments : List (Buffer UInt8)}

/-- Room for what a step takes in. -/
theorem Bounded.room (bounded : Bounded s headers) (balanced : Balanced s)
    (modest : Modest s segments) (client : Int) :
    counted client s.jobs + ofClient client (segments.flatMap calls) ≤ maxInflight := by
  have bound : counted client s.jobs ≤ maxInflight :=
    le_trans (Nat.le_add_right _ _) (bounded.bound client)
  by_cases asked : ∃ header ∈ segments.flatMap calls, clientId header = client
  · obtain ⟨header, member, rfl⟩ := asked
    obtain ⟨segment, at_, in_⟩ := List.mem_flatMap.mp member
    have room := ((modest segment at_).2 header in_).2
    have counter := balanced (clientId header)
    rw [maxInflight] at bound
    rw [toChar_small (by omega) (by omega)] at counter
    omega
  · have none_ : ofClient client (segments.flatMap calls) = 0 := by
      rw [ofClient, List.countP_eq_zero]
      intro header member
      simpa using fun same => asked ⟨header, member, same⟩
    omega

theorem Bounded.takeIn (bounded : Bounded s headers) (balanced : Balanced s)
    (modest : Modest s segments) {doing : Doing} (due : doing.Due (segments.flatMap calls)) :
    Bounded { s with doing := doing } (segments.flatMap calls) where
  due := due
  single := by
    intro header member
    obtain ⟨segment, at_, in_⟩ := List.mem_flatMap.mp member
    exact ((modest segment at_).2 header in_).1
  bound := bounded.room balanced modest
  jobs := bounded.jobs
  crossed := bounded.crossed

/-! ### Packets -/

variable {multicore : Bool} {currentTerm : Int} {executorThreads : Nat} {messages : List Message}
  {a : Arrival}

theorem acceptOne_messages {messages' : List Message} (leader : Bool)
    (ran : acceptOne multicore currentTerm executorThreads messages a = some messages') :
    messages' = messages ∨
      messages' = enter messages a.packet ∧ handsOut multicore currentTerm leader a = false := by
  unfold acceptOne at ran
  dsimp only at ran
  generalize (if multicore = true then _ else _) = term at ran
  split at ran
  · cases ran; exact .inl rfl
  · split at ran
    · split at ran
      · cases ran
      · cases ran; exact .inl rfl
    · split at ran
      · cases ran; exact .inl rfl
      · rename_i notStable
        split at ran
        · cases ran; exact .inl rfl
        · split at ran
          · cases ran; exact .inl rfl
          · rename_i update
            cases ran
            refine .inr ⟨rfl, ?_⟩
            have code : rpcCode a.header ≠ 0 := notStable
            have flags : rpcFlags a.header &&& 1 = 0 := not_not.mp update
            simp [handsOut, code, flags]

theorem handsOut_passes {leader : Bool} (handed : handsOut false currentTerm leader a = true) :
    a.packet.len ≠ 0 := by
  simp [handsOut, Arrival.passes] at handed
  exact handed.1.1.2

theorem packetsOf_cons (a : Arrival) (rest : List Arrival) (messages : List Message) :
    packetsOf (a :: rest) messages =
      messages.flatMap (·.chain) ++ a.packet :: rest.map (·.packet) := rfl

theorem packetsOf_sublist (a : Arrival) (rest : List Arrival) (messages : List Message) :
    (packetsOf rest messages).Sublist (packetsOf (a :: rest) messages) :=
  (List.Sublist.refl _).append (List.sublist_cons_self _ _)

theorem packetsOf_enter (a : Arrival) (rest : List Arrival) (messages : List Message) :
    packetsOf rest (enter messages a.packet) = packetsOf (a :: rest) messages := by
  rw [packetsOf, enter_chain, packetsOf_cons, List.append_assoc, List.singleton_append]

theorem Bounded.lookAt {rest : List Arrival}
    (doing : s.doing = .accepting multicore (a :: rest) messages) (bounded : Bounded s headers)
    (ran : s.lookAt executorThreads multicore a rest messages = some t) :
    ∃ fewer, Bounded t fewer := by
  have due := bounded.due
  rw [doing] at due
  obtain ⟨network, ends, is⟩ := due
  have pass : multicore = false := by
    cases multicore with
    | false => rfl
    | true => cases network rfl
  subst pass
  have own : (rpcs a.packet).isSome := ends a.packet (by simp [packetsOf_cons])
  have others : ∀ segment ∈ packetsOf rest messages, (rpcs segment).isSome :=
    fun segment member => ends segment ((packetsOf_sublist a rest messages).subset member)
  have less : ((packetsOf rest messages).flatMap calls).Sublist headers :=
    is ▸ (packetsOf_sublist a rest messages).flatMap calls
  have first (some_ : a.packet.len ≠ 0) :
      (a.header :: (packetsOf rest messages).flatMap calls).Subperm headers := by
    obtain ⟨later, called⟩ := calls_head own some_
    rw [is, packetsOf_cons, packetsOf, List.flatMap_append, List.flatMap_append, List.flatMap_cons,
      called, List.cons_append]
    refine List.Subperm.trans ?_ List.perm_middle.symm.subperm
    apply (List.subperm_cons _).mpr
    exact ((List.Sublist.refl _).append (List.sublist_append_right later _)).subperm
  unfold State.lookAt at ran
  obtain ⟨messages', taken, rfl⟩ := Option.map_eq_some_iff.mp ran
  have outcome := acceptOne_messages s.leader taken
  dsimp only at outcome ⊢
  split
  · rename_i handed
    have same : messages' = messages := by
      rcases outcome with same | ⟨-, not_⟩
      · exact same
      · rw [handed] at not_
        cases not_
    subst same
    have some_ : a.packet.len ≠ 0 := by
      have passed := handsOut_passes handed
      exact passed
    exact ⟨_, bounded.grow (first some_) ⟨nofun, others, rfl⟩ rfl rfl⟩
  · split
    · rename_i crossing
      obtain ⟨-, passes, -, several⟩ := crossing
      have some_ : a.packet.len ≠ 0 := by
        simp [Arrival.passes] at passes
        exact passes.2
      have one := bounded.single _ ((first some_).subset List.mem_cons_self)
      rw [Arrival.header] at one several
      rw [one] at several
      cases several
    · rcases outcome with rfl | ⟨rfl, -⟩
      · exact ⟨_, bounded.shrink ⟨nofun, others, rfl⟩ less rfl rfl⟩
      · refine ⟨headers, bounded.shrink ⟨nofun, ?_, ?_⟩ (List.Sublist.refl _) rfl rfl⟩
        · rw [packetsOf_enter]
          exact ends
        · rw [packetsOf_enter]
          exact is

/-! ### Entries -/

variable {entries : List Offered}

/-- A walk that has not begun has all RPCs of its entries ahead. -/
theorem due_entries (ends : ∀ segment ∈ entries.flatMap Offered.issued, (rpcs segment).isSome) :
    (Doing.offering entries 0).Due ((entries.flatMap Offered.issued).flatMap calls) := by
  cases entries with
  | nil => rfl
  | cons entry entries =>
    rw [List.flatMap_cons] at ends ⊢
    refine ⟨fun segment member => ends segment (List.mem_append_right _ member),
      entry.issued.flatMap calls, ?_, List.flatMap_append ..⟩
    by_cases issues : entry.issues
    · have all : entry.issued = entry.segments := if_pos issues
      rw [if_pos issues, all]
      apply ahead_of_ends
      exact fun segment member => ends segment (List.mem_append_left _ (all ▸ member))
    · simp [Offered.issued, issues]

/-- The message as an entry. -/
theorem calls_segments (msg : Message) :
    (msg.segments msg.chain).flatMap calls = msg.chain.flatMap calls := by
  unfold Message.segments
  split
  · rfl
  · rfl

theorem ends_segments {msg : Message} (ends : ∀ segment ∈ msg.chain, (rpcs segment).isSome) :
    ∀ segment ∈ msg.segments msg.chain, (rpcs segment).isSome := by
  unfold Message.segments
  split
  · intro segment member
    rcases List.mem_cons.mp member with rfl | later
    · rfl
    · exact ends segment later
  · exact ends

/-- The entries of a burst have the RPCs of its packets ahead. -/
theorem due_messages (ends : ∀ segment ∈ messages.flatMap (·.chain), (rpcs segment).isSome) :
    (Doing.offering (messages.map fun msg => ⟨true, msg.segments msg.chain⟩) 0).Due
      ((messages.flatMap (·.chain)).flatMap calls) := by
  have issued : (messages.map fun msg => (⟨true, msg.segments msg.chain⟩ : Offered)).flatMap
      Offered.issued = messages.flatMap fun msg => msg.segments msg.chain := by
    rw [List.flatMap_map]
    rfl
  have same : (messages.flatMap fun msg => msg.segments msg.chain).flatMap calls =
      (messages.flatMap (·.chain)).flatMap calls := by
    rw [List.flatMap_assoc, List.flatMap_assoc]
    simp only [calls_segments]
  rw [← same, ← issued]
  apply due_entries
  rw [issued]
  intro segment member
  obtain ⟨msg, at_, in_⟩ := List.mem_flatMap.mp member
  exact ends_segments (fun s there => ends s (List.mem_flatMap.mpr ⟨msg, at_, there⟩)) segment in_

/-- An RPC for a single core goes to one core at most. -/
theorem issueRpc_single (entry : Offered) {header : List UInt8}
    (single : isMulticore header = false) :
    s.issueRpc entry header = s ∨
      ∃ job adds, job.header = header ∧ s.issueRpc entry header = s.issue adds job := by
  unfold State.issueRpc
  split
  · have few : ((coresOf (coreMask header)).filter fun core => coreToQuorum core = 0).length ≤ 1 :=
      le_trans (List.length_filter_le _ _) (coresOf_single single)
    match (coresOf (coreMask header)).filter fun core => coreToQuorum core = 0, few with
    | [], _ => exact .inl rfl
    | [core], _ => exact .inr ⟨⟨header, core, some s.serial⟩, counts header core, rfl, rfl⟩
  · exact .inl rfl

theorem Bounded.walkOn {point : Int} (doing : s.doing = .offering entries point)
    (bounded : Bounded s headers) : ∃ fewer, Bounded (s.walkOn entries point) fewer := by
  have due := bounded.due
  rw [doing] at due
  cases entries with
  | nil => exact ⟨[], bounded.shrink rfl (List.nil_sublist _) rfl rfl⟩
  | cons entry entries =>
    obtain ⟨ends, here, now, rfl⟩ := due
    rw [State.walkOn]
    have past : Bounded { s with serial := s.serial + 1, doing := .offering entries 0 }
        ((entries.flatMap Offered.issued).flatMap calls) :=
      bounded.shrink (due_entries ends) (List.sublist_append_right _ _) rfl rfl
    by_cases issues : entry.issues
    · rw [if_pos issues] at now
      obtain ⟨fuel, found⟩ := now
      rcases ahead_seek found with ⟨none_, rfl⟩ | ⟨segment, rest, p, later, at_, rfl, more⟩
      · rw [none_]
        exact ⟨_, past⟩
      · rw [at_]
        have due' : (Doing.offering (⟨entry.issues, segment :: rest⟩ :: entries)
            (segment.next sizeofRpc payloadSz p)).Due
            (later ++ (entries.flatMap Offered.issued).flatMap calls) :=
          ⟨ends, later, by rw [if_pos issues]; exact more, rfl⟩
        have single := bounded.single _ (List.mem_append_left _ List.mem_cons_self)
        rcases issueRpc_single (s := s) entry single with same | ⟨job, adds, is, same⟩
        · have jobs : (s.issueRpc entry (segment.read p sizeofRpc)).jobs = s.jobs := by rw [same]
          have crossed : (s.issueRpc entry (segment.read p sizeofRpc)).crossed = s.crossed := by
            rw [same]
          exact ⟨_, bounded.shrink due' (List.sublist_cons_self _ _) jobs crossed⟩
        · have jobs : (s.issueRpc entry (segment.read p sizeofRpc)).jobs = s.jobs ++ [job] := by
            rw [same]
            rfl
          have crossed : (s.issueRpc entry (segment.read p sizeofRpc)).crossed = s.crossed := by
            rw [same]
            rfl
          exact ⟨_, bounded.grow (is ▸ List.Subperm.refl _) due' jobs crossed⟩
    · rw [if_neg issues] at now
      subst now
      cases seek entry.segments point with
      | none => exact ⟨_, past⟩
      | some there =>
        obtain ⟨segment, rest, p⟩ := there
        have due' : (Doing.offering (⟨entry.issues, segment :: rest⟩ :: entries)
            (segment.next sizeofRpc payloadSz p)).Due
            ([] ++ (entries.flatMap Offered.issued).flatMap calls) :=
          ⟨ends, [], by rw [if_neg issues], rfl⟩
        have same : s.issueRpc entry (segment.read p sizeofRpc) = s := if_neg issues
        have jobs : (s.issueRpc entry (segment.read p sizeofRpc)).jobs = s.jobs := by rw [same]
        have crossed : (s.issueRpc entry (segment.read p sizeofRpc)).crossed = s.crossed := by
          rw [same]
        exact ⟨_, bounded.shrink due' (List.Sublist.refl _) jobs crossed⟩

/-! ### Steps -/

theorem Bounded.complete (bounded : Bounded s headers) {place : Nat}
    (at_ : s.jobs[place]? = some job) : Bounded (s.complete place job) headers where
  due := bounded.due
  single := bounded.single
  bound := by
    intro client
    have bound := bounded.bound client
    have before := counted_eraseIdx client at_
    show counted client (s.jobs.eraseIdx place) + ofClient client headers ≤ maxInflight
    omega
  jobs := fun job' member => bounded.jobs job' ((List.eraseIdx_sublist _ _).subset member)
  crossed := bounded.crossed

theorem Bounded.step {act : Act} (balanced : Balanced s) (bounded : Bounded s headers)
    (within : act.Within s) (ran : s.step executorThreads act = some t) :
    ∃ headers, Bounded t headers := by
  unfold State.step at ran
  split at ran
  case h_1 =>
    cases ran
    exact ⟨_, bounded.shrink bounded.due (.refl _) rfl rfl⟩
  case h_2 =>
    split at ran
    · cases ran
      refine ⟨_, bounded.takeIn balanced within ⟨nofun, ?_, rfl⟩⟩
      exact fun segment member => (within segment member).1
    · cases ran
  case h_3 =>
    cases ran
    have none_ := bounded.crossed
    refine ⟨[], bounded.shrink ?_ (List.nil_sublist _) rfl (by simp [none_])⟩
    rw [none_]
    exact ⟨fun _ => rfl, nofun, rfl⟩
  case h_4 doing => exact bounded.lookAt doing ran
  case h_5 taken _ messages doing =>
    cases ran
    have due := bounded.due
    rw [doing] at due
    obtain ⟨-, ends, rfl⟩ := due
    rw [packetsOf, List.map_nil, List.append_nil] at ends
    cases taken with
    | false => exact ⟨[], bounded.shrink rfl (List.nil_sublist _) rfl rfl⟩
    | true =>
      refine ⟨_, bounded.shrink (due_messages ends) ?_ rfl rfl⟩
      rw [packetsOf, List.map_nil, List.append_nil]
  case h_6 =>
    cases ran
    refine ⟨_, bounded.takeIn balanced within (due_entries ?_)⟩
    exact fun segment member => (within segment member).1
  case h_7 doing =>
    cases ran
    exact bounded.walkOn doing
  case h_8 =>
    split at ran
    · cases ran
      exact ⟨_, bounded.shrink bounded.due (.refl _) rfl rfl⟩
    · cases ran
  case h_9 =>
    split at ran
    · rename_i job at_
      split at ran
      · cases ran
        exact ⟨_, bounded.complete at_⟩
      · cases ran
    · cases ran
  case h_10 => cases ran

/-- The RPCs for single cores of a client that are handed out and not finished. -/
def State.outstanding (s : State) (client : Int) : Nat :=
  s.jobs.countP fun job => !isMulticore job.header && clientId job.header = client

theorem Bounded.counted_eq (bounded : Bounded s headers) (client : Int) :
    counted client s.jobs = s.outstanding client := by
  refine List.countP_congr fun job member => ?_
  simp [counts, bounded.jobs job member]

/-- **Admission control.**  In every run that takes in only bursts and entries for which the counters
leave room, the counter of a client is the number of its RPCs for single cores under way, and at most
`MAX_INFLIGHT`. -/
theorem inflight_bounded (executorThreads : Nat) {s t : State} (fresh : s.Fresh)
    (run : Path (State.step executorThreads) (fun s act => Act.Within s act) s t) :
    ∀ client, t.inflight client = t.outstanding client ∧ t.outstanding client ≤ maxInflight := by
  have start : Balanced s ∧ ∃ headers, Bounded s headers := by
    refine ⟨.fresh fresh, [], ?_, nofun, ?_, ?_, fresh.crossed⟩
    · rw [fresh.doing]
      rfl
    · intro client
      rw [fresh.jobs]
      exact Nat.zero_le _
    · rw [fresh.jobs]
      exact nofun
  have reached : Balanced t ∧ ∃ headers, Bounded t headers := by
    refine run.keeps (I := fun t => Balanced t ∧ ∃ headers, Bounded t headers) start ?_
    rintro u act v ⟨balanced, headers, bounded⟩ within ran
    exact ⟨balanced.step ran, bounded.step balanced within ran⟩
  obtain ⟨balanced, headers, bounded⟩ := reached
  intro client
  have bound : counted client t.jobs ≤ maxInflight :=
    le_trans (Nat.le_add_right _ _) (bounded.bound client)
  have counter := balanced client
  rw [toChar_small (by omega) (by unfold maxInflight at bound; omega)] at counter
  rw [← bounded.counted_eq client]
  exact ⟨counter, bound⟩

end Bound

/-! ## One client -/

/-- A leader of term 1. -/
def leading : State := ⟨1, true, fun _ => 0, [], [], .idle, 0, fun _ => .unknown⟩

theorem leading_fresh : leading.Fresh := ⟨rfl, rfl, rfl, rfl, fun _ _ => rfl⟩

/-- An update of client 7 for core 0. -/
def update : Arrival := rpcPacket 1 1 [7, 0, 0, 0]

/-- Twelve updates, of which one is finished. -/
theorem inflight_bounded_twelve : ∃ t, leading.Fresh ∧
    Path (State.step 1) (fun s act => Act.Within s act) leading t ∧ t.inflight 7 = 11 ∧
      ∀ client, t.inflight client = t.outstanding client ∧ t.outstanding client ≤ maxInflight := by
  have ran : ∃ t ∈ exec (State.step 1) (fun s act => Act.Within s act) leading
      [[.burst (List.replicate 12 update)], List.replicate 12 .look, [.hand true],
        List.replicate 14 .walk, [.verdict 0 .success, .finish 0]].flatten,
      t.inflight 7 = 11 := by
    decide +kernel
  obtain ⟨t, run, some_⟩ := Path.exists_of_exec ran
  exact ⟨t, leading_fresh, run, some_, inflight_bounded 1 leading_fresh run⟩

/-- A burst of thirteen. -/
theorem inflight_exceeded : ∃ t, leading.Fresh ∧ Path (State.step 1) anyStep leading t ∧
    t.inflight 7 = 13 ∧ t.outstanding 7 = 13 ∧ maxInflight < t.outstanding 7 := by
  have ran : ∃ t ∈ exec (State.step 1) anyStep leading
      [[.burst (List.replicate 13 update)], List.replicate 13 .look, [.hand true],
        List.replicate 13 .walk].flatten, t.inflight 7 = 13 ∧ t.outstanding 7 = 13 := by
    decide +kernel
  obtain ⟨t, run, thirteen, many⟩ := Path.exists_of_exec ran
  exact ⟨t, leading_fresh, run, thirteen, many, by rw [many]; decide⟩

end Cyclone.Core.Inflight
