/-
# Core.Merging — the acknowledgements of a burst

The monitor thread collects the answers to the appendentries messages of one burst and
`send_ae_responses` sends one of them for all, when they carry one term.

* `merged_iff`: every answer is compared with the first one, so the last above the first is sent.
  That is the latest one exactly when what lies behind a latest one is no late straggler.
* `nacks_limited`: a failure is held back when its code is -1.  The raft library writes 0
  (`raftFailure`), so the limit is left to the messages and their timing (`nacks_unlimited`).
-/
import Cyclone.Raft.Machine
import Cyclone.Theory.Run
import Mathlib.Algebra.Group.Nat.Defs
import Mathlib.Data.List.Chain

namespace Cyclone.Core

open Cyclone.Raft
open Cyclone.Theory (Path exec anyStep)

set_option autoImplicit false

/-- `ae_responses[i].aer` with `ae_response_sources[i]`. -/
structure Ack (ι : Type) where
  aer : MsgAppendentriesResponse
  dest : ι
deriving DecidableEq, Repr

/-- What `raft_recv_appendentries` writes to `success` when it fails. -/
def raftFailure : Int := 0

/-- `aer.success`, when a failure is written as `failure`. -/
def Ack.success {ι : Type} (failure : Int) (a : Ack ι) : Int := if a.aer.success then 1 else failure

/-- A failure that was sent for a burst, and when. -/
structure Nack where
  time : Nat
  term : Int
  idx : Int
deriving DecidableEq, Repr

/-- The part of `cyclone_st` that answers appendentries; `nacks` are the failures sent for a whole
burst so far. -/
structure Outbox (ι : Type) where
  buffer : List (Ack ι)
  nackTerm : Int
  nackIdx : Int
  nackTs : Nat
  sent : List (Ack ι)
  nacks : List Nack
deriving DecidableEq, Repr

variable {ι α : Type}

/-- The loop that looks for the latest response; none when two terms differ. -/
def latest (mergeTerm idx : Int) (toSend : Ack ι) : List (Ack ι) → Option (Ack ι)
  | [] => some toSend
  | r :: rest =>
    if r.aer.term ≠ mergeTerm then none
    else latest mergeTerm idx (if idx < r.aer.currentIdx then r else toSend) rest

namespace Outbox

def transmit (o : Outbox ι) (as : List (Ack ι)) : Outbox ι :=
  { o with buffer := [], sent := o.sent ++ as }

/-- One response for the burst; the failures among them are noted. -/
def transmitOne (o : Outbox ι) (stamp : Nat) (a : Ack ι) : Outbox ι :=
  { o.transmit [a] with
    nacks := if a.aer.success then o.nacks
      else o.nacks ++ [⟨stamp, a.aer.term, a.aer.currentIdx⟩] }

/-- `send_ae_responses`; `now` and `stamp` are the two readings of the cycle counter. -/
def sendAeResponses (failure : Int) (timeout now stamp : Nat) (o : Outbox ι) : Outbox ι :=
  match o.buffer with
  | [] => o
  | first :: rest =>
    match latest first.aer.term first.aer.currentIdx first rest with
    | none => o.transmit o.buffer
    | some a =>
      if a.success failure = -1 then
        if a.aer.term ≠ o.nackTerm ∨ a.aer.currentIdx ≠ o.nackIdx ∨
            (o.nackTs + timeout) % 2 ^ 64 ≤ now then
          { o.transmitOne stamp a with
            nackTerm := a.aer.term, nackIdx := a.aer.currentIdx, nackTs := stamp }
        else o.transmit []
      else o.transmitOne stamp a

end Outbox

/-! ## The response that is chosen -/

/-- The last response whose index is above the first one's, or the first. -/
def lastAbove (first : Ack ι) (rest : List (Ack ι)) : Ack ι :=
  (rest.filter (first.aer.currentIdx < ·.aer.currentIdx)).getLast?.getD first

variable {mergeTerm : Int} {rest : List (Ack ι)}

variable {idx : Int}

theorem latest_of_term (same : ∀ b ∈ rest, b.aer.term = mergeTerm) (toSend : Ack ι) :
    latest mergeTerm idx toSend rest =
      some ((rest.filter (idx < ·.aer.currentIdx)).getLast?.getD toSend) := by
  induction rest generalizing toSend with
  | nil => rfl
  | cons r rest ih =>
    rw [latest, if_neg (not_not.mpr (same r List.mem_cons_self)),
      ih fun b later => same b (List.mem_cons_of_mem r later)]
    by_cases above : idx < r.aer.currentIdx
    · rw [if_pos above, List.filter_cons_of_pos (by simpa using above), List.getLast?_cons]
      rfl
    · rw [if_neg above, List.filter_cons_of_neg (by simpa using above)]

theorem latest_of_other (other : ∃ b ∈ rest, b.aer.term ≠ mergeTerm) (toSend : Ack ι) :
    latest mergeTerm idx toSend rest = none := by
  induction rest generalizing toSend with
  | nil => simp at other
  | cons r rest ih =>
    rw [latest]
    split
    · rfl
    · rename_i same
      obtain ⟨b, member, differs⟩ := other
      rcases List.mem_cons.mp member with rfl | later
      · exact absurd differs same
      · exact ih ⟨b, later, differs⟩ _

theorem lastAbove_mem (first : Ack ι) (rest : List (Ack ι)) : lastAbove first rest ∈ first :: rest := by
  unfold lastAbove
  cases found : (rest.filter (first.aer.currentIdx < ·.aer.currentIdx)).getLast? with
  | none => exact List.mem_cons_self
  | some a => exact List.mem_cons_of_mem first (List.mem_of_mem_filter (List.mem_of_getLast? found))

/-- All responses carry one term. -/
def OneTerm (buffer : List (Ack ι)) : Prop := ∀ a ∈ buffer, ∀ b ∈ buffer, a.aer.term = b.aer.term

instance (buffer : List (Ack ι)) : Decidable (OneTerm buffer) :=
  inferInstanceAs (Decidable (∀ a ∈ buffer, ∀ b ∈ buffer, _))

variable {first : Ack ι}

theorem oneTerm_cons : OneTerm (first :: rest) ↔ ∀ b ∈ rest, b.aer.term = first.aer.term := by
  constructor
  · intro same b later
    exact same b (List.mem_cons_of_mem first later) first List.mem_cons_self
  · intro same
    have all : ∀ a ∈ first :: rest, a.aer.term = first.aer.term := List.forall_mem_cons.mpr ⟨rfl, same⟩
    intro a one b two
    rw [all a one, all b two]

/-- A burst answered with its latest success, or with everything when the terms differ. -/
structure Merged (o o' : Outbox ι) : Prop where
  emptied : o'.buffer = []
  latest : OneTerm o.buffer → (∀ a ∈ o.buffer, a.aer.success = true) →
    ∃ a ∈ o.buffer, o'.sent = o.sent ++ [a] ∧ ∀ b ∈ o.buffer, b.aer.currentIdx ≤ a.aer.currentIdx
  all : ¬OneTerm o.buffer → o'.sent = o.sent ++ o.buffer

/-- What is sent for a burst of successes. -/
theorem sent_of_successes {failure : Int} {timeout now stamp : Nat} {o : Outbox ι}
    (held : o.buffer = first :: rest) (same : ∀ b ∈ rest, b.aer.term = first.aer.term)
    (good : ∀ a ∈ o.buffer, a.aer.success = true) :
    o.sendAeResponses failure timeout now stamp = o.transmitOne stamp (lastAbove first rest) := by
  have success : (lastAbove first rest).success failure = 1 := by
    rw [Ack.success, good _ (held ▸ lastAbove_mem first rest), if_pos rfl]
  rw [Outbox.sendAeResponses, held]
  simp only [latest_of_term same]
  rw [show (rest.filter _).getLast?.getD first = lastAbove first rest from rfl, if_neg]
  rw [success]
  decide

theorem emptied_send (failure : Int) (timeout now stamp : Nat) (o : Outbox ι) :
    (o.sendAeResponses failure timeout now stamp).buffer = [] := by
  unfold Outbox.sendAeResponses
  split
  · assumption
  · split
    · rfl
    · split
      · split <;> rfl
      · rfl

/-- Behind some response with the largest index, none lies above the first one's and below it. -/
def LatestLast (first : Ack ι) (rest : List (Ack ι)) : Prop :=
  ∃ before top behind, first :: rest = before ++ top :: behind ∧
    (∀ a ∈ first :: rest, a.aer.currentIdx ≤ top.aer.currentIdx) ∧
    ∀ a ∈ behind, ¬(first.aer.currentIdx < a.aer.currentIdx ∧ a.aer.currentIdx < top.aer.currentIdx)

/-- Behind the response that is sent none is above the first. -/
theorem lastAbove_split (first : Ack ι) (rest : List (Ack ι)) :
    ∃ before behind, first :: rest = before ++ lastAbove first rest :: behind ∧
      ∀ a ∈ behind, a.aer.currentIdx ≤ first.aer.currentIdx := by
  induction rest using List.reverseRecOn with
  | nil => exact ⟨[], [], rfl, fun a absent => absurd absent List.not_mem_nil⟩
  | append_singleton rest r ih =>
    by_cases above : first.aer.currentIdx < r.aer.currentIdx
    · refine ⟨first :: rest, [], ?_, fun a absent => absurd absent List.not_mem_nil⟩
      simp [lastAbove, above]
    · obtain ⟨before, behind, split, low⟩ := ih
      refine ⟨before, behind ++ [r], ?_, fun a member => ?_⟩
      · rw [← List.cons_append, split]
        simp [lastAbove, above]
      · rcases List.mem_append.mp member with old | last
        · exact low a old
        · rw [List.mem_singleton.mp last]
          exact Int.not_lt.mp above

theorem le_lastAbove (first : Ack ι) (rest : List (Ack ι)) :
    first.aer.currentIdx ≤ (lastAbove first rest).aer.currentIdx := by
  unfold lastAbove
  cases found : (rest.filter (first.aer.currentIdx < ·.aer.currentIdx)).getLast? with
  | none => exact Int.le_refl _
  | some a =>
    have above := (List.mem_filter.mp (List.mem_of_getLast? found)).2
    exact Int.le_of_lt (by simpa using above)

/-- What is sent has the largest index exactly when the list is so. -/
theorem lastAbove_top_iff (first : Ack ι) (rest : List (Ack ι)) :
    (∀ b ∈ first :: rest, b.aer.currentIdx ≤ (lastAbove first rest).aer.currentIdx) ↔
      LatestLast first rest := by
  constructor
  · intro highest
    obtain ⟨before, behind, split, low⟩ := lastAbove_split first rest
    exact ⟨before, lastAbove first rest, behind, split, highest, fun a later between =>
      absurd between.1 (Int.not_lt.mpr (low a later))⟩
  · rintro ⟨before, top, behind, split, highest, apart⟩ b member
    refine Int.le_trans (highest b member) ?_
    by_cases above : first.aer.currentIdx < top.aer.currentIdx
    · -- the largest is behind the first, and only its equals are sent after it
      obtain - | ⟨head, before⟩ := before
      · cases split
        exact absurd above (Int.lt_irrefl _)
      · obtain ⟨rfl, tail⟩ := List.cons.inj split
        have sent : lastAbove first rest ∈
            top :: behind.filter (first.aer.currentIdx < ·.aer.currentIdx) := by
          rw [tail, lastAbove, List.append_eq, List.filter_append, List.filter_cons_of_pos (by simpa using above),
            List.getLast?_append, List.getLast?_eq_some_getLast (List.cons_ne_nil _ _)]
          exact List.getLast_mem _
        rcases List.mem_cons.mp sent with same | later
        · rw [same]
        · obtain ⟨inside, higher⟩ := List.mem_filter.mp later
          exact Int.not_lt.mp fun below => apart _ inside ⟨by simpa using higher, below⟩
    · exact Int.le_trans (Int.not_lt.mp above) (le_lastAbove first rest)

/-- **What a merged answer stands for.**  A burst is answered with its latest success exactly when,
if it is made of successes of one term, what lies behind a response with the largest index is no
higher than the first response, or as high as the largest. -/
theorem merged_iff (failure : Int) (timeout now stamp : Nat) (o : Outbox ι) (first : Ack ι)
    (rest : List (Ack ι)) (held : o.buffer = first :: rest) :
    Merged o (o.sendAeResponses failure timeout now stamp) ↔
      (OneTerm o.buffer → (∀ a ∈ o.buffer, a.aer.success = true) → LatestLast first rest) := by
  constructor
  · intro merged same good
    obtain ⟨a, -, sent, highest⟩ := merged.latest same good
    rw [sent_of_successes held (oneTerm_cons.mp (held ▸ same)) good] at sent
    obtain rfl : lastAbove first rest = a := by simpa [Outbox.transmitOne, Outbox.transmit] using sent
    exact (lastAbove_top_iff first rest).mp fun b member => highest b (held ▸ member)
  · intro ordered
    refine ⟨emptied_send _ _ _ _ o, fun same good => ?_, fun differ => ?_⟩
    · refine ⟨lastAbove first rest, held ▸ lastAbove_mem first rest, ?_, fun b member => ?_⟩
      · rw [sent_of_successes held (oneTerm_cons.mp (held ▸ same)) good]
        rfl
      · exact (lastAbove_top_iff first rest).mpr (ordered same good) b (held ▸ member)
    · have other : ∃ b ∈ rest, b.aer.term ≠ first.aer.term := by
        rw [held, oneTerm_cons] at differ
        simpa using differ
      rw [Outbox.sendAeResponses, held]
      simp only [latest_of_other other]
      rfl

/-- A burst of successes of term 1 as a buffer. -/
def ackBurst (idxs : List Int) : Outbox (Fin 2) where
  buffer := idxs.map fun idx => ⟨⟨1, true, idx, idx⟩, 1⟩
  nackTerm := -1
  nackIdx := 0
  nackTs := 0
  sent := []
  nacks := []

theorem merged_in_order :
    Merged (ackBurst [1, 2, 3]) ((ackBurst [1, 2, 3]).sendAeResponses raftFailure 1000 0 0) :=
  (merged_iff raftFailure 1000 0 0 (ackBurst [1, 2, 3]) ⟨⟨1, true, 1, 1⟩, 1⟩ _ rfl).mpr
    fun _ _ => ⟨[⟨⟨1, true, 1, 1⟩, 1⟩, ⟨⟨1, true, 2, 2⟩, 1⟩], ⟨⟨1, true, 3, 3⟩, 1⟩, [], rfl,
      by decide, by decide⟩

/-- A late packet is answered instead of the latest. -/
theorem unmerged_out_of_order :
    ¬Merged (ackBurst [1, 3, 2]) ((ackBurst [1, 3, 2]).sendAeResponses raftFailure 1000 0 0) := by
  intro merged
  obtain ⟨a, -, sent, highest⟩ := merged.latest (by decide) (by decide)
  have second : (ackBurst [1, 3, 2]).sendAeResponses raftFailure 1000 0 0 =
      { ackBurst [] with sent := [⟨⟨1, true, 2, 2⟩, 1⟩] } := by decide
  rw [second] at sent
  obtain rfl : ⟨⟨1, true, 2, 2⟩, 1⟩ = a := List.singleton_injective sent
  exact absurd (highest ⟨⟨1, true, 3, 3⟩, 1⟩ (by decide)) (by decide)

/-! ## The limit on failures -/

/-- The monitor thread: its raft server, its answers, and the last reading of the cycle counter.
`refusals` are the messages raft has refused in the bursts answered so far, each with the term and
the index of the refusal and the time at which its burst was answered. -/
structure RaftLoop (ι α : Type) where
  srv : Server ι α
  out : Outbox ι
  clock : Nat
  refusals : List Nack

/-- A step of the loop: the buffer is reset, a message of the burst comes in, the burst ends, or
another call is made on the raft server. -/
inductive RaftLoopAct (ι α : Type) where
  | reset
  | receive (env : Env α) (source : ι) (msg : Msg ι α) (now stamp : Nat)
  | send (now stamp : Nat)
  | call (env : Env α) (input : Input ι α)

/-- A message of the burst as the refusal it got. -/
def Ack.refusal (stamp : Nat) (a : Ack ι) : Option Nack :=
  if a.aer.success then none else some ⟨stamp, a.aer.term, a.aer.currentIdx⟩

namespace RaftLoop

/-- `send_ae_responses`, at a time that is not before the last reading. -/
def send (failure : Int) (timeout : Nat) (w : RaftLoop ι α) (now stamp : Nat) :
    Option (RaftLoop ι α) :=
  if w.clock ≤ now ∧ now ≤ stamp ∧ stamp < 2 ^ 64 then
    some { w with
      out := w.out.sendAeResponses failure timeout now stamp
      clock := stamp
      refusals := w.refusals ++ w.out.buffer.filterMap (Ack.refusal stamp) }
  else none

variable [DecidableEq ι]

def step (failure : Int) (timeout : Nat) (w : RaftLoop ι α) :
    RaftLoopAct ι α → Option (RaftLoop ι α)
  | .reset => some { w with out := { w.out with buffer := [] } }
  | .receive _ source (.appendentries ae) _ _ =>
    match w.srv.raftRecvAppendentries source ae with
    | .error _ => none
    | .ok (srv, aer) =>
      some { w with srv := srv, out := { w.out with buffer := w.out.buffer ++ [⟨aer, source⟩] } }
  | .receive env source msg now stamp =>
    (w.send failure timeout now stamp).bind fun w =>
      (w.srv.step (env, .recv source msg)).map fun srv => { w with srv := srv }
  | .send now stamp => w.send failure timeout now stamp
  | .call env input => (w.srv.step (env, input)).map fun srv => { w with srv := srv }

/-- Where the loop starts; two of the three fields are not initialised. -/
def start (srv : Server ι α) (nackIdx : Int) (nackTs : Nat) : RaftLoop ι α where
  srv := srv
  out := ⟨[], -1, nackIdx, nackTs, [], []⟩
  clock := 0
  refusals := []

end RaftLoop

namespace Outbox

/-- The failures sent for a burst are `timeout` apart from the one before, if they are alike. -/
def Limited (timeout : Nat) (o : Outbox ι) : Prop :=
  o.nacks.IsChain fun a b => a.term = b.term → a.idx = b.idx → a.time + timeout ≤ b.time

instance (timeout : Nat) (o : Outbox ι) : Decidable (o.Limited timeout) :=
  inferInstanceAs (Decidable (List.IsChain _ _))

variable {failure : Int} {timeout now stamp : Nat} {o : Outbox ι}

/-- The merge path sends at most one response, and that is one of the burst. -/
theorem nacks_send (failure : Int) (timeout now stamp : Nat) (o : Outbox ι) :
    (o.sendAeResponses failure timeout now stamp).nacks = o.nacks ∨
      ∃ a ∈ o.buffer, ∃ nack ∈ a.refusal stamp,
        (o.sendAeResponses failure timeout now stamp).nacks = o.nacks ++ [nack] := by
  unfold sendAeResponses
  split
  · exact .inl rfl
  · rename_i first rest held
    split
    · exact .inl rfl
    · rename_i a found
      have chosen : a ∈ o.buffer := by
        by_cases same : ∀ b ∈ rest, b.aer.term = first.aer.term
        · rw [latest_of_term same] at found
          cases found
          exact held ▸ lastAbove_mem first rest
        · rw [latest_of_other (by simpa using same)] at found
          cases found
      have sent : (o.transmitOne stamp a).nacks = o.nacks ∨ ∃ b ∈ o.buffer, ∃ nack ∈ b.refusal stamp,
          (o.transmitOne stamp a).nacks = o.nacks ++ [nack] := by
        cases success : a.aer.success with
        | true => exact .inl (by simp [transmitOne, success])
        | false =>
          exact .inr ⟨a, chosen, ⟨stamp, a.aer.term, a.aer.currentIdx⟩, by simp [Ack.refusal, success],
            by simp [transmitOne, success]⟩
      split
      · split
        · exact sent
        · exact .inl rfl
      · exact sent

end Outbox

namespace RaftLoop

/-- When a step answers a burst: the time of the answer. -/
def sendsAt : RaftLoopAct ι α → Option Nat
  | .receive _ _ (.appendentries _) _ _ => none
  | .receive _ _ _ _ stamp => some stamp
  | .send _ stamp => some stamp
  | _ => none

/-- No message of a burst is refused like one of an earlier burst, with the same term and index,
unless that was answered `timeout` before. -/
def Paced (timeout : Nat) (w : RaftLoop ι α) (l : RaftLoopAct ι α) : Prop :=
  ∀ stamp ∈ sendsAt l, ∀ a ∈ w.out.buffer, ∀ new ∈ a.refusal stamp, ∀ old ∈ w.refusals,
    old.term = new.term → old.idx = new.idx → old.time + timeout ≤ new.time

instance (timeout : Nat) (w : RaftLoop ι α) (l : RaftLoopAct ι α) : Decidable (w.Paced timeout l) :=
  inferInstanceAs (Decidable (∀ stamp ∈ sendsAt l, ∀ a ∈ w.out.buffer, _))

/-- The failures sent are among the refusals, and apart. -/
structure Spaced (timeout : Nat) (w : RaftLoop ι α) : Prop where
  limited : w.out.Limited timeout
  refused : ∀ nack ∈ w.out.nacks, nack ∈ w.refusals

variable {failure : Int} {timeout : Nat} {w w' : RaftLoop ι α}

theorem Spaced.send {now stamp : Nat} (spaced : w.Spaced timeout)
    (paced : ∀ a ∈ w.out.buffer, ∀ new ∈ a.refusal stamp, ∀ old ∈ w.refusals,
      old.term = new.term → old.idx = new.idx → old.time + timeout ≤ new.time)
    (sent : w.send failure timeout now stamp = some w') : w'.Spaced timeout := by
  unfold RaftLoop.send at sent
  split at sent
  · cases sent
    obtain same | ⟨a, inside, nack, refused, added⟩ :=
      Outbox.nacks_send failure timeout now stamp w.out
    · refine ⟨?_, fun nack member => ?_⟩
      · rw [Outbox.Limited, same]
        exact spaced.limited
      · rw [same] at member
        exact List.mem_append_left _ (spaced.refused nack member)
    · refine ⟨?_, fun other member => ?_⟩
      · rw [Outbox.Limited, added, List.isChain_append]
        refine ⟨spaced.limited, List.isChain_singleton _, fun last found new first term idx => ?_⟩
        cases first
        exact paced a inside nack refused last (spaced.refused last (List.mem_of_getLast? found)) term idx
      · rw [added] at member
        rcases List.mem_append.mp member with old | new
        · exact List.mem_append_left _ (spaced.refused other old)
        · rw [List.mem_singleton.mp new]
          exact List.mem_append_right _ (List.mem_filterMap.mpr ⟨a, inside, refused⟩)
  · cases sent

variable [DecidableEq ι]

theorem Spaced.step {l : RaftLoopAct ι α} (spaced : w.Spaced timeout) (paced : w.Paced timeout l)
    (stepped : w.step failure timeout l = some w') : w'.Spaced timeout := by
  -- a message that is no appendentries first sends what was collected
  have other {env : Env α} {source : ι} {msg : Msg ι α} {now stamp : Nat}
      (answers : stamp ∈ sendsAt l)
      (stepped : (w.send failure timeout now stamp).bind (fun w =>
        (w.srv.step (env, .recv source msg)).map fun srv => { w with srv := srv }) = some w') :
      w'.Spaced timeout := by
    obtain ⟨v, sent, rest⟩ := Option.bind_eq_some_iff.mp stepped
    obtain ⟨srv, -, rfl⟩ := Option.map_eq_some_iff.mp rest
    have done : v.Spaced timeout := spaced.send (paced stamp answers) sent
    exact ⟨done.limited, done.refused⟩
  cases l with
  | reset =>
    cases stepped
    exact ⟨spaced.limited, spaced.refused⟩
  | receive env source msg now stamp =>
    cases msg with
    | appendentries ae =>
      rw [RaftLoop.step] at stepped
      split at stepped
      · cases stepped
      · cases stepped
        exact ⟨spaced.limited, spaced.refused⟩
    | requestvote rv => exact other rfl stepped
    | requestvoteResponse rvr => exact other rfl stepped
    | appendentriesResponse aer => exact other rfl stepped
  | send now stamp => exact spaced.send (paced stamp rfl) stepped
  | call env input =>
    obtain ⟨srv, -, rfl⟩ := Option.map_eq_some_iff.mp stepped
    exact ⟨spaced.limited, spaced.refused⟩

/-- **Failures are limited when the refusals are.**  In every run of the loop in which raft refuses no
message like one of an earlier burst that was answered less than `timeout` before, two failures in a
row that are alike are `timeout` apart. -/
theorem nacks_limited (failure : Int) (timeout : Nat) (srv : Server ι α) (nackIdx : Int)
    (nackTs : Nat) (w : RaftLoop ι α)
    (run : Path (step failure timeout) (Paced timeout) (start srv nackIdx nackTs) w) :
    w.out.Limited timeout := by
  refine (run.keeps (I := Spaced timeout) ?_ ?_).limited
  · exact ⟨List.isChain_nil, fun nack absent => absurd absent List.not_mem_nil⟩
  · intro v l v' spaced paced stepped
    exact spaced.step paced stepped

/-- A message of term 0 that does not fit the log of a fresh server, read at `time`. -/
def strayBurst (time : Nat) : List (RaftLoopAct (Fin 2) Unit) :=
  let env : Env Unit := ⟨0, id, fun _ => none, ()⟩
  [.reset, .receive env 1 (.appendentries ⟨0, 5, 0, 0, []⟩) time time, .send time time]

/-- A server that has heard nothing yet. -/
def strayStart : RaftLoop (Fin 2) Unit :=
  start (Server.boot 0 2 ⟨1000, 200, 1000, false, true⟩ [0, 1]) 0 0

theorem nacks_limited_late :
    ∃ w, Path (step raftFailure 1000) (Paced 1000) strayStart w ∧
      w.out.nacks.length = 2 ∧ w.out.Limited 1000 := by
  have ran : ∃ w ∈ exec (step raftFailure 1000) (Paced 1000) strayStart
      (strayBurst 0 ++ strayBurst 1000), w.out.nacks.length = 2 := by
    decide
  obtain ⟨w, run, two⟩ := Path.exists_of_exec ran
  exact ⟨w, run, two, nacks_limited raftFailure 1000 _ 0 0 w run⟩

/-- The same failure is sent twice within a cycle. -/
theorem nacks_unlimited :
    ∃ w, Path (step raftFailure 1000) anyStep strayStart w ∧ ¬w.out.Limited 1000 := by
  refine Path.exists_of_exec (l := strayBurst 0 ++ strayBurst 1) ?_
  decide

end RaftLoop

end Cyclone.Core
