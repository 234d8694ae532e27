/-
# Cluster.Restart — elections over crashes

A server persists its term and its vote in two cells, each by its own callback.  It may
crash between any two callbacks of a call, and later restarts as a follower from
the two cells, with no memory of its peers and with whatever log of client entries it
recovered.  `Books` holds the cells and every vote ever cast; a call writes it callback
by callback (`Books.noteAll`), a crash cuts the writing short.

`raft_set_current_term` clears the vote in memory but persists only the term, so a cell may hold
a vote of an earlier term.  `Sound` says what the cells still promise: a vote of the
term in the cell is the vote in the cell.  A vote left over from an earlier term
only keeps its server from voting.
-/
import Cyclone.Cluster.Seats
import Cyclone.Raft.Actions

namespace Cyclone

open Cyclone.Raft Cyclone.Theory Relation

set_option autoImplicit false

variable {n : Nat} {α : Type}

/-- `raft_pstate_t`, less the log. -/
structure Pstate (n : Nat) where
  term : Int
  votedFor : Option (Fin n)
deriving DecidableEq

/-- A vote, in the term its voter then had. -/
structure Vote (n : Nat) where
  voter : Fin n
  term : Int
  candidate : Option (Fin n)
deriving DecidableEq

/-- The cells of every server, and the votes ever cast. -/
structure Books (n : Nat) where
  cells : Fin n → Pstate n
  votes : List (Vote n)

namespace Books

/-- `__persist_term` and `__persist_vote`. -/
def note (i : Fin n) (b : Books n) : Callback (Fin n) α → Books n
  | .persistTerm term =>
    { b with cells := Function.update b.cells i { b.cells i with term := term } }
  | .persistVote votedFor =>
    { cells := Function.update b.cells i { b.cells i with votedFor := votedFor }
      votes := b.votes ++ [⟨i, (b.cells i).term, votedFor⟩] }
  | _ => b

def noteAll (i : Fin n) (b : Books n) (cs : List (Callback (Fin n) α)) : Books n :=
  cs.foldl (note i) b

theorem noteAll_append (i : Fin n) (b : Books n) (cs cs' : List (Callback (Fin n) α)) :
    b.noteAll i (cs ++ cs') = (b.noteAll i cs).noteAll i cs' :=
  List.foldl_append

end Books

/-- A cluster with what its servers persisted. -/
structure World (n : Nat) (α : Type) where
  cluster : Cluster n α
  books : Books n

/-- A step of the cluster, a crash of the server it runs on before the callback number `k` of the
call, or a restart with a recovered log. -/
inductive Event (n : Nat) (α : Type) where
  | call (l : Label n α)
  | crash (l : Label n α) (k : Nat)
  | restart (i : Fin n) (entries : List (Entry (Fin n) α))

/-- A server restarted from its cells. -/
def reboot (i : Fin n) (cfg : Config) (cell : Pstate n) (entries : List (Entry (Fin n) α)) :
    Server (Fin n) α :=
  { Server.boot i n cfg (List.finRange n) with
    currentTerm := cell.term
    votedFor := cell.votedFor
    log := logAppendBatch logNew entries }

namespace World

def initial (cfg : Fin n → Config) : World n α where
  cluster := Cluster.initial cfg
  books := { cells := fun _ => ⟨0, none⟩, votes := [] }

/-- One step.  A crashed server is down, its packets and cells are those of the callbacks made, and
its answer is lost.  Its memory, which nothing reads any more, is left as the whole call would
leave it: what the server became in the middle of the call is seen there. -/
def step (cfg : Fin n → Config) (w : World n α) : Event n α → Option (World n α)
  | .call l =>
    (w.cluster.callOf l).bind fun p =>
      if w.cluster.up p.1 then
        let c := w.cluster.call p.1 p.2.1 p.2.2.1 p.2.2.2
        some ⟨c, w.books.noteAll p.1 (newCalls (w.cluster.srv p.1) (c.srv p.1))⟩
      else none
  | .crash l k =>
    (w.cluster.callOf l).bind fun p =>
      if w.cluster.up p.1 then
        let c := w.cluster.call p.1 p.2.1 p.2.2.1 p.2.2.2
        let made := (newCalls (w.cluster.srv p.1) (c.srv p.1)).take k
        some
          { cluster :=
              { srv := c.srv
                up := Function.update w.cluster.up p.1 false
                net := w.cluster.net ++ packetsOf p.1 made }
            books := w.books.noteAll p.1 made }
      else none
  | .restart i entries =>
    if w.cluster.up i = false ∧ ∀ e ∈ entries, e.type = .normal then
      some
        { w with
          cluster :=
            { w.cluster with
              srv := Function.update w.cluster.srv i
                (reboot i (cfg i) (w.books.cells i) entries)
              up := Function.update w.cluster.up i true } }
    else none

end World

/-! ## What the cells promise -/

/-- No server voted twice in a term; a vote of the term in its voter's cell is the vote there. -/
structure Sound (b : Books n) : Prop where
  once : ∀ v ∈ b.votes, ∀ v' ∈ b.votes, v.voter = v'.voter → v.term = v'.term →
    v.candidate = v'.candidate
  named : ∀ v ∈ b.votes, v.candidate ≠ none
  reached : ∀ v ∈ b.votes, v.term ≤ (b.cells v.voter).term
  cast : ∀ v ∈ b.votes, v.term = (b.cells v.voter).term → (b.cells v.voter).votedFor = v.candidate

/-- A callback that keeps the promise: a later term, or a vote for someone in a term without a
vote.  A request for votes names its sender, and nothing but client entries is sent. -/
def LawfulCall (i : Fin n) (b : Books n) : Callback (Fin n) α → Prop
  | .persistTerm term => (b.cells i).term < term
  | .persistVote votedFor =>
    votedFor ≠ none ∧ ∀ v ∈ b.votes, v.voter = i → v.term ≠ (b.cells i).term
  | .sendRequestvote _ rv => rv.candidateId = some i
  | .sendAppendentries _ ae => ∀ e ∈ ae.entries, e.type = .normal
  | _ => True

/-- Callbacks each of which is lawful after those before it. -/
def Lawful (i : Fin n) : Books n → List (Callback (Fin n) α) → Prop
  | _, [] => True
  | b, c :: cs => LawfulCall i b c ∧ Lawful i (b.note i c) cs

section Promise

variable {i : Fin n} {b : Books n} {c : Callback (Fin n) α} {cs cs' : List (Callback (Fin n) α)}

theorem Sound.note (sound : Sound b) (lawful : LawfulCall i b c) : Sound (b.note i c) := by
  cases c with
  | persistTerm term =>
    have later : (b.cells i).term < term := lawful
    refine ⟨sound.once, sound.named, fun v member => ?_, fun v member here => ?_⟩
    · have reached := sound.reached v member
      by_cases mine : v.voter = i
      · simp only [Books.note, mine, Function.update_self] at reached ⊢
        omega
      · simp only [Books.note, Function.update_of_ne mine]
        exact reached
    · have reached := sound.reached v member
      by_cases mine : v.voter = i
      · simp only [Books.note, mine, Function.update_self] at reached here
        omega
      · simp only [Books.note, Function.update_of_ne mine] at here ⊢
        exact sound.cast v member here
  | persistVote votedFor =>
    obtain ⟨some_, fresh⟩ := lawful
    have split : ∀ v ∈ (b.note i (.persistVote votedFor : Callback (Fin n) α)).votes,
        v ∈ b.votes ∨ v = ⟨i, (b.cells i).term, votedFor⟩ := by
      intro v member
      simpa [Books.note] using member
    have cells : ∀ j, ((b.note i (.persistVote votedFor : Callback (Fin n) α)).cells j).term =
        (b.cells j).term := by
      intro j
      by_cases mine : j = i
      · subst mine
        simp [Books.note]
      · simp [Books.note, Function.update_of_ne mine]
    refine ⟨fun v member v' member' voter term => ?_, fun v member => ?_, fun v member => ?_,
      fun v member here => ?_⟩
    · rcases split v member with old | rfl <;> rcases split v' member' with old' | rfl
      · exact sound.once v old v' old' voter term
      · exact absurd term (fresh v old voter)
      · exact absurd term.symm (fresh v' old' voter.symm)
      · rfl
    · rcases split v member with old | rfl
      · exact sound.named v old
      · exact some_
    · rw [cells]
      rcases split v member with old | rfl
      · exact sound.reached v old
      · exact le_refl _
    · rw [cells] at here
      rcases split v member with old | rfl
      · by_cases mine : v.voter = i
        · exact absurd (mine ▸ here) (fresh v old mine)
        · simp only [Books.note, Function.update_of_ne mine]
          exact sound.cast v old here
      · simp [Books.note]
  | sendRequestvote | sendAppendentries | applylog | logOffer | logPoll | logPollBatch | logPop =>
    exact sound

theorem Sound.noteAll (sound : Sound b) (lawful : Lawful i b cs) : Sound (b.noteAll i cs) := by
  induction cs generalizing b with
  | nil => exact sound
  | cons c cs ih => exact ih (sound.note lawful.1) lawful.2

theorem Lawful.append (first : Lawful i b cs) (second : Lawful i (b.noteAll i cs) cs') :
    Lawful i b (cs ++ cs') := by
  induction cs generalizing b with
  | nil => exact second
  | cons c cs ih => exact ⟨first.1, ih first.2 second⟩

/-- What was made before a crash was lawful. -/
theorem Lawful.take (lawful : Lawful i b cs) (k : Nat) : Lawful i b (cs.take k) := by
  induction cs generalizing b k with
  | nil => rwa [List.take_nil]
  | cons c cs ih =>
    cases k with
    | zero => trivial
    | succ k => exact ⟨lawful.1, ih lawful.2 k⟩

/-- Votes are never taken back. -/
theorem Books.votes_noteAll (i : Fin n) (b : Books n) (cs : List (Callback (Fin n) α)) :
    b.votes ⊆ (b.noteAll i cs).votes := by
  induction cs generalizing b with
  | nil => exact fun _ member => member
  | cons c cs ih =>
    refine fun v member => ih (b.note i c) ?_
    cases c with
    | persistVote votedFor => exact List.mem_append_left _ member
    | persistTerm | sendRequestvote | sendAppendentries | applylog | logOffer | logPoll
    | logPollBatch | logPop => exact member

/-- Other servers' cells are not written. -/
theorem Books.cells_noteAll {j : Fin n} (other : j ≠ i) (b : Books n)
    (cs : List (Callback (Fin n) α)) : (b.noteAll i cs).cells j = b.cells j := by
  induction cs generalizing b with
  | nil => rfl
  | cons c cs ih =>
    refine (ih (b.note i c)).trans ?_
    cases c with
    | persistVote | persistTerm => exact Function.update_of_ne other _ _
    | sendRequestvote | sendAppendentries | applylog | logOffer | logPoll
    | logPollBatch | logPop => rfl

/-- Other servers' votes are not touched. -/
theorem Books.mem_votes_noteAll {v : Vote n} (other : v.voter ≠ i) {b : Books n}
    (member : v ∈ (b.noteAll i cs).votes) : v ∈ b.votes := by
  induction cs generalizing b with
  | nil => exact member
  | cons c cs ih =>
    have before := ih member
    cases c with
    | persistVote votedFor =>
      rcases List.mem_append.mp before with old | new
      · exact old
      · rw [List.mem_singleton.mp new] at other
        exact absurd rfl other
    | persistTerm | sendRequestvote | sendAppendentries | applylog | logOffer | logPoll
    | logPollBatch | logPop => exact before

end Promise

end Cyclone
