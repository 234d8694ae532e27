/-
# Core.Scheduler — the scheduler of the commuting build

With `__COMMUTE`, `__raft_logentry_offer_batch` gives each operation of an entry to
`scheduler_st` instead of a core.  Its list has the newest operation first; `next_schedule` divides
it into the operations still waiting and those handed to the executors.  `schedule()` hands out the
next one if it commutes with every older operation whose flag is not yet set, and `gc()` unlinks
those whose flag is set.  An executor runs an operation and then sets the flag, which lies in the
`wal_entry_t` of the operation's entry.

All of offering, `schedule()` and `gc()` run on the raft thread, one loop turn at a time here; the
executors' steps come anywhere in between.  The rings to the executors are kept as one list from
which any operation may be taken: a ring per core and the round-robin choice of a core leave the
order open.
-/
import Cyclone.Theory.Run
import Cyclone.Theory.Traces
import Mathlib.Logic.Function.Basic

namespace Cyclone.Core

open Cyclone.Theory

set_option autoImplicit false

/-- `node_t`: the operation, its number in the order of `add`, and where its flag is. -/
structure Node (R : Type) where
  id : Nat
  rpc : R
  wal : Nat
deriving DecidableEq, Repr

/-- What the raft thread is doing. -/
inductive Doing (R : Type) where
  | idle
  /-- `__raft_logentry_offer_batch`, with the operations of the entry still to be added. -/
  | offering (wal : Nat) (rest : List R)
  /-- `schedule()`, from `list_node` on. -/
  | scheduling (rest : List (Node R))
  /-- `gc()`, at `list_node`. -/
  | collecting (pos : Nat)
deriving DecidableEq, Repr

/-- `max_sched_buffer_length`. -/
def maxSchedBufferLength : Nat := 4096

/-- `scheduler_st`, the flags, the executors and the application. -/
structure Sched (R S B : Type) where
  /-- From `next_schedule` to the newest. -/
  waiting : List (Node R)
  /-- From `next_schedule->next` to the oldest. -/
  issued : List (Node R)
  doing : Doing R
  /-- `marked` of each `wal_entry_t`. -/
  marked : Nat → Bool
  /-- The number of entries offered. -/
  entries : Nat
  /-- On their way to an executor. -/
  rings : List (Node R)
  /-- Run, with the flag still to be set. -/
  finished : List (Node R)
  app : S
  /-- Everything added, in order. -/
  added : List (Node R)
  /-- Everything run, with its response, in order. -/
  ran : List (Node R × B)

inductive SchedLabel (R : Type) where
  /-- An entry with these operations, one for each RPC and core. -/
  | offer (rpcs : List R)
  | schedule
  | gc
  /-- The next turn of the loop the raft thread is in. -/
  | turn
  | exec (k : Nat)
  | mark (k : Nat)
deriving DecidableEq, Repr

namespace Sched

variable {R S B : Type}

def init (app : S) : Sched R S B :=
  { waiting := [], issued := [], doing := .idle, marked := fun _ => false, entries := 0, rings := [],
    finished := [], app := app, added := [], ran := [] }

/-- `size`. -/
def size (w : Sched R S B) : Nat := w.waiting.length + w.issued.length

/-- `wal->marked = GC_IN_USE` and `add`. -/
def add (w : Sched R S B) (wal : Nat) (rpc : R) : Sched R S B :=
  let newest : Node R := ⟨w.added.length, rpc, wal⟩
  { w with
    marked := Function.update w.marked wal false
    waiting := w.waiting ++ [newest]
    added := w.added ++ [newest] }

/-- The next operation of the entry; when the buffer is full, the loop around `add` never ends. -/
def offerTurn (w : Sched R S B) (wal : Nat) : List R → Option (Sched R S B)
  | [] => some { w with doing := .idle }
  | rpc :: rest =>
    if w.size = maxSchedBufferLength then none
    else some { w.add wal rpc with doing := .offering wal rest }

/-- Where `schedule()` goes on: back, or at the operations behind the next one. -/
def resume (waiting issued : List (Node R)) : Doing R :=
  if waiting = [] then .idle else .scheduling issued

/-- The operation is handed to the executors and `next_schedule` moves on. -/
def dispatch (w : Sched R S B) (next : Node R) (later : List (Node R)) : Sched R S B :=
  { w with
    rings := w.rings ++ [next]
    waiting := later
    issued := next :: w.issued
    doing := resume later (next :: w.issued) }

/-- A turn of `schedule()`: `NON_COMMUTE` ends it. -/
def scheduleTurn (isCommute : R → R → Bool) (w : Sched R S B) (rest : List (Node R)) : Sched R S B :=
  match w.waiting, rest with
  | [], _ => { w with doing := .idle }
  | next :: _, listNode :: rest =>
    if w.marked listNode.wal = false ∧ isCommute next.rpc listNode.rpc = false then
      { w with doing := .idle }
    else { w with doing := .scheduling rest }
  | next :: later, [] => w.dispatch next later

/-- A turn of `gc()`. -/
def gcTurn (w : Sched R S B) (pos : Nat) : Sched R S B :=
  match w.issued[pos]? with
  | none => { w with doing := .idle }
  | some listNode =>
    if w.marked listNode.wal then { w with issued := w.issued.eraseIdx pos }
    else { w with doing := .collecting (pos + 1) }

/-- A turn of the raft thread. -/
def turn (isCommute : R → R → Bool) (w : Sched R S B) : Option (Sched R S B) :=
  match w.doing with
  | .idle => none
  | .offering wal rest => w.offerTurn wal rest
  | .scheduling rest => some (w.scheduleTurn isCommute rest)
  | .collecting pos => some (w.gcTurn pos)

/-- An executor takes an operation and runs it. -/
def exec (act : S → R → S × B) (w : Sched R S B) (k : Nat) (x : Node R) : Sched R S B :=
  { w with
    rings := w.rings.eraseIdx k
    app := (act w.app x.rpc).1
    ran := w.ran ++ [(x, (act w.app x.rpc).2)]
    finished := w.finished ++ [x] }

/-- `wal->marked = GC_READY`. -/
def mark (w : Sched R S B) (k : Nat) (x : Node R) : Sched R S B :=
  { w with marked := Function.update w.marked x.wal true, finished := w.finished.eraseIdx k }

def step (act : S → R → S × B) (isCommute : R → R → Bool) (w : Sched R S B) :
    SchedLabel R → Option (Sched R S B)
  | .offer rpcs =>
    match w.doing with
    | .idle => some { w with doing := .offering w.entries rpcs, entries := w.entries + 1 }
    | _ => none
  | .schedule =>
    match w.doing with
    | .idle => some { w with doing := resume w.waiting w.issued }
    | _ => none
  | .gc =>
    match w.doing with
    | .idle => some { w with doing := .collecting 0 }
    | _ => none
  | .turn => w.turn isCommute
  | .exec k => (w.rings[k]?).map (w.exec act k)
  | .mark k => (w.finished[k]?).map (w.mark k)

/-- The operation whose flag the raft thread reads next. -/
def reads (w : Sched R S B) : Option (Node R) :=
  match w.doing, w.waiting with
  | .scheduling (listNode :: _), _ :: _ => some listNode
  | .collecting pos, _ => w.issued[pos]?
  | _, _ => none

/-- The operations that were run. -/
def executed (w : Sched R S B) : List (Node R) := w.ran.map Prod.fst

end Sched

/-- Each entry gives the scheduler at most one operation, so that no two operations share a flag. -/
def OwnFlag {R S B : Type} (_ : Sched R S B) : SchedLabel R → Prop
  | .offer rpcs => rpcs.length ≤ 1
  | _ => True

instance {R S B : Type} (w : Sched R S B) : ∀ l, Decidable (OwnFlag w l)
  | .offer rpcs => inferInstanceAs (Decidable (rpcs.length ≤ 1))
  | .schedule | .gc | .turn | .exec _ | .mark _ => isTrue trivial

/-! ## What a step does -/

section Moves

variable {R S B : Type} {act : S → R → S × B} {isCommute : R → R → Bool} {w w' : Sched R S B}

/-- The steps of a run in which operations have their own flags. -/
inductive SchedMove (act : S → R → S × B) (isCommute : R → R → Bool) :
    Sched R S B → Sched R S B → Prop where
  | offer (w : Sched R S B) (rpcs : List R) (few : rpcs.length ≤ 1) :
      SchedMove act isCommute w { w with doing := .offering w.entries rpcs, entries := w.entries + 1 }
  | add (w : Sched R S B) (wal : Nat) (rpc : R) (rest : List R)
      (doing : w.doing = .offering wal (rpc :: rest)) :
      SchedMove act isCommute w { w.add wal rpc with doing := .offering wal rest }
  | schedule (w : Sched R S B) : SchedMove act isCommute w { w with doing := Sched.resume w.waiting w.issued }
  | pass (w : Sched R S B) (next listNode : Node R) (later rest : List (Node R))
      (waiting : w.waiting = next :: later) (doing : w.doing = .scheduling (listNode :: rest))
      (allowed : w.marked listNode.wal = true ∨ isCommute next.rpc listNode.rpc = true) :
      SchedMove act isCommute w { w with doing := .scheduling rest }
  | dispatch (w : Sched R S B) (next : Node R) (later : List (Node R))
      (waiting : w.waiting = next :: later) (doing : w.doing = .scheduling []) :
      SchedMove act isCommute w (w.dispatch next later)
  | unlink (w : Sched R S B) (pos : Nat) (listNode : Node R) (doing : w.doing = .collecting pos)
      (at_ : w.issued[pos]? = some listNode) (marked : w.marked listNode.wal = true) :
      SchedMove act isCommute w { w with issued := w.issued.eraseIdx pos }
  | collect (w : Sched R S B) (pos : Nat) : SchedMove act isCommute w { w with doing := .collecting pos }
  | leave (w : Sched R S B) : SchedMove act isCommute w { w with doing := .idle }
  | exec (w : Sched R S B) (k : Nat) (x : Node R) (at_ : w.rings[k]? = some x) :
      SchedMove act isCommute w (w.exec act k x)
  | mark (w : Sched R S B) (k : Nat) (x : Node R) (at_ : w.finished[k]? = some x) :
      SchedMove act isCommute w (w.mark k x)

theorem SchedMove.of_turn (taken : w.turn isCommute = some w') : SchedMove act isCommute w w' := by
  unfold Sched.turn at taken
  split at taken
  · cases taken
  · rename_i wal rest doing
    cases rest with
    | nil =>
      cases taken
      exact .leave w
    | cons rpc rest =>
      rw [Sched.offerTurn] at taken
      split at taken
      · cases taken
      · cases taken
        exact .add w wal rpc rest doing
  · rename_i rest doing
    cases taken
    unfold Sched.scheduleTurn
    split
    · exact .leave w
    · rename_i next later listNode rest waiting
      split
      · exact .leave w
      · rename_i allowed
        refine .pass w next listNode later rest waiting doing ?_
        simpa [Decidable.or_iff_not_not_and_not] using allowed
    · rename_i next later waiting
      exact .dispatch w next later waiting doing
  · rename_i pos doing
    cases taken
    unfold Sched.gcTurn
    split
    · exact .leave w
    · rename_i listNode at_
      split
      · rename_i marked
        exact .unlink w pos listNode doing at_ marked
      · exact .collect w (pos + 1)

theorem SchedMove.of_step {l : SchedLabel R} (ok : OwnFlag w l)
    (taken : w.step act isCommute l = some w') : SchedMove act isCommute w w' := by
  cases l with
  | offer rpcs =>
    simp only [Sched.step] at taken
    split at taken <;> cases taken
    exact .offer w rpcs ok
  | schedule =>
    simp only [Sched.step] at taken
    split at taken <;> cases taken
    exact .schedule w
  | gc =>
    simp only [Sched.step] at taken
    split at taken <;> cases taken
    exact .collect w 0
  | turn => exact .of_turn taken
  | exec k =>
    obtain ⟨x, at_, rfl⟩ := Option.map_eq_some_iff.mp taken
    exact .exec w k x at_
  | mark k =>
    obtain ⟨x, at_, rfl⟩ := Option.map_eq_some_iff.mp taken
    exact .mark w k x at_

end Moves

/-! ## Flags -/

section Flags

variable {R S B : Type} {act : S → R → S × B} {isCommute : R → R → Bool} {w w' : Sched R S B}

theorem executed_exec {k : Nat} {x : Node R} : (w.exec act k x).executed = w.executed ++ [x] := by
  simp [Sched.executed, Sched.exec]

/-- What was run stays run. -/
theorem executed_kept {k : Nat} {x y : Node R} (run : y ∈ w.executed) : y ∈ (w.exec act k x).executed := by
  rw [executed_exec]
  exact List.mem_append_left _ run

/-- What was handed to the executors, in order. -/
def Sched.handed (w : Sched R S B) : List (Node R) := w.added.take (w.added.length - w.waiting.length)

theorem Sched.handed_add (w : Sched R S B) (wal : Nat) (rpc : R) (doing : Doing R) :
    ({ w.add wal rpc with doing := doing } : Sched R S B).handed = w.handed := by
  simp only [Sched.handed, Sched.add, List.length_append, List.length_singleton,
    Nat.add_sub_add_right]
  exact List.take_append_of_le_length (Nat.sub_le _ _)

/-- The lists and the flags, as long as operations have their own flags. -/
structure Flags (w : Sched R S B) : Prop where
  added : w.added = w.handed ++ w.waiting
  rings : (w.rings ++ w.executed).Perm w.handed
  issued : ∀ x ∈ w.issued, x ∈ w.handed
  linked : ∀ x ∈ w.handed, x ∈ w.issued ∨ x ∈ w.executed
  scanned : ∀ rest, w.doing = .scheduling rest → ∀ x ∈ rest, x ∈ w.handed
  finished : ∀ x ∈ w.finished, x ∈ w.executed
  own : ∀ x ∈ w.added, ∀ y ∈ w.added, x.wal = y.wal → x = y
  used : ∀ x ∈ w.added, x.wal < w.entries
  fresh : ∀ wal rest, w.doing = .offering wal rest →
    rest.length ≤ 1 ∧ wal < w.entries ∧ (rest ≠ [] → ∀ x ∈ w.added, x.wal ≠ wal)
  /-- A flag that is set belongs to an operation that was run. -/
  ready : ∀ x ∈ w.added, w.marked x.wal = true → x ∈ w.executed

namespace Flags

theorem init (app : S) : Flags (Sched.init app : Sched R S B) := by
  constructor <;> intros <;> first | rfl | contradiction

variable {x : Node R}

theorem handed_added (member : x ∈ w.handed) : x ∈ w.added :=
  List.mem_of_mem_take member

variable (flags : Flags w)
include flags

theorem executed_handed (member : x ∈ w.executed) : x ∈ w.handed :=
  flags.rings.mem_iff.mp (List.mem_append_right _ member)

/-- Where the raft thread is does not matter to the rest. -/
theorem doing {doing : Doing R}
    (scanned : ∀ rest, doing = .scheduling rest → ∀ x ∈ rest, x ∈ w.handed)
    (fresh : ∀ wal rest, doing ≠ .offering wal rest) : Flags { w with doing := doing } :=
  { flags with scanned := scanned, fresh := fun wal rest now => absurd now (fresh wal rest) }

theorem resume : Flags { w with doing := Sched.resume w.waiting w.issued } := by
  unfold Sched.resume
  split
  · exact flags.doing (fun _ now => by cases now) (fun _ _ now => by cases now)
  · refine flags.doing (fun rest now => ?_) (fun _ _ now => by cases now)
    cases now
    exact flags.issued

theorem add {wal : Nat} {rpc : R} {rest : List R} (doing : w.doing = .offering wal (rpc :: rest)) :
    Flags { w.add wal rpc with doing := .offering wal rest } := by
  obtain ⟨few, low, unused⟩ := flags.fresh wal _ doing
  have unused := unused (List.cons_ne_nil _ _)
  have last : rest = [] := List.eq_nil_of_length_eq_zero (by rw [List.length_cons] at few; omega)
  have whole := flags.added
  have same : ({ w.add wal rpc with doing := .offering wal rest } : Sched R S B).handed = w.handed :=
    w.handed_add wal rpc _
  refine
    { added := ?_, rings := by rw [same]; exact flags.rings, issued := by rw [same]; exact flags.issued
      linked := by rw [same]; exact flags.linked, scanned := fun _ now => by cases now
      finished := flags.finished, own := ?_, used := ?_, fresh := ?_, ready := ?_ }
  · rw [same]
    simp only [Sched.add]
    rw [← List.append_assoc, ← whole]
  · intro x old y old'
    rcases List.mem_append.mp old with old | new <;> rcases List.mem_append.mp old' with old' | new'
    · exact flags.own x old y old'
    · cases List.mem_singleton.mp new'
      exact fun clash => absurd clash (unused x old)
    · cases List.mem_singleton.mp new
      exact fun clash => absurd clash.symm (unused y old')
    · rw [List.mem_singleton.mp new, List.mem_singleton.mp new']
      exact fun _ => rfl
  · intro x old
    rcases List.mem_append.mp old with old | new
    · exact flags.used x old
    · cases List.mem_singleton.mp new
      exact low
  · intro wal' rest' now
    cases now
    exact ⟨by rw [last]; exact Nat.zero_le 1, low, fun more => absurd last more⟩
  · intro x old set
    rcases List.mem_append.mp old with old | new
    · have other : (Function.update w.marked wal false) x.wal = w.marked x.wal :=
        Function.update_of_ne (unused x old) _ _
      exact flags.ready x old (other.symm.trans set)
    · cases List.mem_singleton.mp new
      have own : (Function.update w.marked wal false) wal = false := Function.update_self _ _ _
      exact absurd (set.symm.trans own) (by decide)

variable {next : Node R} {later : List (Node R)}

theorem handed_dispatch (waiting : w.waiting = next :: later) :
    (w.dispatch next later).handed = w.handed ++ [next] := by
  have whole := flags.added
  rw [waiting] at whole
  generalize w.handed = done at whole
  have count : done.length + (later.length + 1) - later.length = done.length + 1 := by omega
  simp only [Sched.handed, Sched.dispatch, whole, List.length_append, List.length_cons, count]
  rw [List.take_length_add_append]
  rfl

theorem dispatch (waiting : w.waiting = next :: later) : Flags (w.dispatch next later) := by
  have done := flags.handed_dispatch waiting
  have whole := flags.added
  rw [waiting] at whole
  have issued : ∀ x ∈ next :: w.issued, x ∈ w.handed ++ [next] := by
    intro x member
    rcases List.mem_cons.mp member with rfl | member
    · exact List.mem_append_right _ List.mem_cons_self
    · exact List.mem_append_left _ (flags.issued x member)
  refine
    { added := ?_, rings := ?_, issued := by rw [done]; exact issued, linked := ?_, scanned := ?_
      finished := flags.finished, own := flags.own, used := flags.used, fresh := ?_
      ready := flags.ready }
  · rw [done, List.append_assoc]
    exact whole
  · rw [done]
    have moved : (w.rings ++ [next] ++ w.executed).Perm (w.rings ++ w.executed ++ [next]) := by
      rw [List.append_assoc, List.append_assoc]
      exact List.perm_append_comm.append_left w.rings
    exact moved.trans (flags.rings.append_right _)
  · rw [done]
    intro x member
    rcases List.mem_append.mp member with old | new
    · exact (flags.linked x old).imp_left (List.mem_cons_of_mem next)
    · cases List.mem_singleton.mp new
      exact .inl List.mem_cons_self
  · rw [done]
    intro rest now
    simp only [Sched.dispatch, Sched.resume] at now
    split at now <;> cases now
    exact issued
  · intro wal rest now
    simp only [Sched.dispatch, Sched.resume] at now
    split at now <;> cases now

theorem unlink {pos : Nat} {listNode : Node R}
    (at_ : w.issued[pos]? = some listNode) (marked : w.marked listNode.wal = true) :
    Flags { w with issued := w.issued.eraseIdx pos } := by
  have run : listNode ∈ w.executed :=
    flags.ready listNode (handed_added (flags.issued _ (List.mem_of_getElem? at_))) marked
  refine { flags with issued := fun x member => flags.issued x (List.mem_of_mem_eraseIdx member)
                      linked := fun x member => ?_ }
  rcases flags.linked x member with linked | executed
  · obtain ⟨i, here⟩ := List.mem_iff_getElem?.mp linked
    by_cases same : i = pos
    · subst same
      cases at_.symm.trans here
      exact .inr run
    · exact .inl (List.mem_eraseIdx_iff_getElem?.mpr ⟨i, same, here⟩)
  · exact .inr executed

variable {k : Nat}

theorem exec (at_ : w.rings[k]? = some x) : Flags (w.exec act k x) := by
  refine
    { added := flags.added, rings := ?_, issued := flags.issued
      linked := fun y member => (flags.linked y member).imp_right executed_kept, scanned := flags.scanned
      finished := fun y member => ?_, own := flags.own, used := flags.used, fresh := flags.fresh
      ready := fun y member set => executed_kept (flags.ready y member set) }
  · rw [executed_exec]
    obtain ⟨bound, here⟩ := List.getElem?_eq_some_iff.mp at_
    have taken : (x :: w.rings.eraseIdx k).Perm w.rings := by
      rw [← here]
      exact List.getElem_cons_eraseIdx_perm bound
    refine List.Perm.trans ?_ flags.rings
    refine List.Perm.trans ?_ (taken.append_right _)
    rw [← List.append_assoc]
    exact List.perm_append_comm
  · rw [executed_exec]
    rcases List.mem_append.mp member with old | new
    · exact List.mem_append_left _ (flags.finished y old)
    · exact List.mem_append_right _ new

theorem mark (at_ : w.finished[k]? = some x) : Flags (w.mark k x) := by
  have run : x ∈ w.executed := flags.finished x (List.mem_of_getElem? at_)
  have known : x ∈ w.added := handed_added (flags.executed_handed run)
  refine { flags with finished := fun y member => flags.finished y (List.mem_of_mem_eraseIdx member)
                      ready := fun y member set => ?_ }
  by_cases same : y.wal = x.wal
  · rw [flags.own y member x known same]
    exact run
  · have other : (Function.update w.marked x.wal true) y.wal = w.marked y.wal :=
      Function.update_of_ne same _ _
    exact flags.ready y member (other.symm.trans set)

theorem move (move : SchedMove act isCommute w w') : Flags w' := by
  cases move with
  | offer rpcs few =>
    refine { flags with scanned := fun _ now => (by cases now), used := ?_, fresh := ?_ }
    · exact fun x member => Nat.lt_succ_of_lt (flags.used x member)
    · intro wal rest now
      cases now
      exact ⟨few, Nat.lt_succ_self _, fun _ x member => Nat.ne_of_lt (flags.used x member)⟩
  | add wal rpc rest doing => exact flags.add doing
  | schedule => exact flags.resume
  | pass next listNode later rest waiting doing allowed =>
    refine flags.doing (fun rest' now x member => ?_) (fun _ _ now => by cases now)
    cases now
    exact flags.scanned _ doing x (List.mem_cons_of_mem listNode member)
  | dispatch next later waiting doing => exact flags.dispatch waiting
  | unlink pos listNode doing at_ marked => exact flags.unlink at_ marked
  | collect => exact flags.doing (fun _ now => by cases now) (fun _ _ now => by cases now)
  | leave => exact flags.doing (fun _ now => by cases now) (fun _ _ now => by cases now)
  | exec k x at_ => exact flags.exec at_
  | mark k x at_ => exact flags.mark at_

omit flags in
theorem run {app : S} (run : Path (Sched.step act isCommute) OwnFlag (Sched.init app) w) : Flags w :=
  run.keeps (I := Flags) (init app) fun _ _ _ flags ok taken => flags.move (.of_step ok taken)

theorem reads (read : w.reads = some x) : x ∈ w.added := by
  unfold Sched.reads at read
  split at read
  · rename_i listNode rest next later doing waiting
    cases read
    exact handed_added (flags.scanned _ doing _ List.mem_cons_self)
  · exact handed_added (flags.issued _ (List.mem_of_getElem? read))
  · cases read

end Flags

/-- **Flags are sound.** As long as no entry gives the scheduler two operations, a flag read as set
belongs to an operation that was run. -/
theorem ready_is_executed {app : S}
    (run : Path (Sched.step act isCommute) OwnFlag (Sched.init app) w) {x : Node R}
    (read : w.reads = some x) (ready : w.marked x.wal = true) : x ∈ w.executed :=
  (Flags.run run).ready x ((Flags.run run).reads read) ready

/-- An entry with two operations: the flag set for the first is read for the second. -/
theorem ready_is_executed_fails : ∃ (w : Sched Nat Nat Nat) (x : Node Nat),
    Path (Sched.step (fun s a => (s + a, s)) fun _ _ => true) anyStep (Sched.init 0) w ∧
    w.reads = some x ∧ w.marked x.wal = true ∧ x ∉ w.executed := by
  have ran : ∃ w ∈ exec (Sched.step (fun s a => (s + a, s)) fun _ _ => true) anyStep
      (Sched.init 0 : Sched Nat Nat Nat)
      [.offer [1, 2], .turn, .turn, .turn, .schedule, .turn, .turn, .turn, .exec 0, .mark 0,
        .gc], w.reads = some ⟨1, 2, 0⟩ ∧ w.marked 0 = true ∧
          ⟨1, 2, 0⟩ ∉ w.executed := by
    decide +kernel
  obtain ⟨w, run, read, ready, missing⟩ := Path.exists_of_exec ran
  exact ⟨w, ⟨1, 2, 0⟩, run, read, ready, missing⟩

/-- The same run with an entry for each operation. -/
theorem ready_is_executed_apart : ∃ (w : Sched Nat Nat Nat) (x : Node Nat),
    w.reads = some x ∧ w.marked x.wal = true ∧ x ∈ w.executed := by
  have ran : ∃ w ∈ exec (Sched.step (fun s a => (s + a, s)) fun _ _ => true) OwnFlag
      (Sched.init 0 : Sched Nat Nat Nat)
      [.offer [1], .turn, .turn, .offer [2], .turn, .turn, .schedule, .turn, .turn, .turn, .exec 1,
        .mark 0, .gc], w.reads = some ⟨1, 2, 1⟩ ∧ w.marked 1 = true := by
    decide +kernel
  obtain ⟨w, run, read, ready⟩ := Path.exists_of_exec ran
  exact ⟨w, ⟨1, 2, 1⟩, read, ready, ready_is_executed run read ready⟩

end Flags

/-! ## The order of execution -/

section Order

variable {R S B : Type} {act : S → R → S × B} {isCommute : R → R → Bool} {app : S}
  {w w' : Sched R S B}

/-- The operation of a node, tagged with its number. -/
def Node.op (x : Node R) : R × Nat := (x.rpc, x.id)

/-- The responses given, each with the number of its operation. -/
def Sched.responses (w : Sched R S B) : List (B × Nat) := w.ran.map fun p => (p.2, p.1.id)

/-- An operation is run before an older one only if it commutes with it. -/
structure Ordered (act : S → R → S × B) (isCommute : R → R → Bool) (app : S) (w : Sched R S B) :
    Prop where
  numbered : ∀ (i : Nat) (x : Node R), w.added[i]? = some x → x.id = i
  /-- What `schedule()` has passed so far. -/
  passed : ∀ next later rest, w.waiting = next :: later → w.doing = .scheduling rest →
    ∀ x ∈ w.handed, x ∈ rest ∨ x ∈ w.executed ∨ isCommute next.rpc x.rpc = true
  older : ∀ y ∈ w.handed, ∀ x ∈ w.handed, x.id < y.id →
    x ∈ w.executed ∨ isCommute y.rpc x.rpc = true
  overtakes : w.executed.Pairwise fun (x y : Node R) => x.id < y.id ∨ isCommute x.rpc y.rpc = true
  outcome : (w.app, w.responses) = runAll act app (w.executed.map Node.op)

namespace Ordered

theorem init : Ordered act isCommute app (Sched.init app : Sched R S B) := by
  constructor <;> intros <;> first | rfl | contradiction | exact List.Pairwise.nil

variable {x : Node R} (ordered : Ordered act isCommute app w)
include ordered

/-- Numbers tell operations apart. -/
theorem id_inj {y : Node R} (known : x ∈ w.added) (known' : y ∈ w.added) (same : x.id = y.id) : x = y := by
  obtain ⟨i, at_⟩ := List.mem_iff_getElem?.mp known
  obtain ⟨j, at'⟩ := List.mem_iff_getElem?.mp known'
  rw [ordered.numbered i x at_, ordered.numbered j y at'] at same
  subst same
  exact Option.some_inj.mp (at_.symm.trans at')

theorem sorted : w.added.Pairwise fun (x y : Node R) => x.id < y.id := by
  rw [List.pairwise_iff_getElem]
  intro i j low low' less
  rw [ordered.numbered i _ (List.getElem?_eq_getElem low),
    ordered.numbered j _ (List.getElem?_eq_getElem low')]
  exact less

theorem nodup : w.added.Nodup :=
  ordered.sorted.imp fun less same => by rw [same] at less; exact Nat.lt_irrefl _ less

/-- Where the raft thread is matters to `passed` only. -/
theorem doing {doing : Doing R}
    (passed : ∀ next later rest, w.waiting = next :: later → doing = .scheduling rest →
      ∀ x ∈ w.handed, x ∈ rest ∨ x ∈ w.executed ∨ isCommute next.rpc x.rpc = true) :
    Ordered act isCommute app { w with doing := doing } :=
  { ordered with passed := passed }

theorem resume (flags : Flags w) :
    Ordered act isCommute app { w with doing := Sched.resume w.waiting w.issued } := by
  refine ordered.doing fun next later rest waiting now x member => ?_
  rw [Sched.resume, waiting, if_neg (List.cons_ne_nil _ _)] at now
  cases now
  exact (flags.linked x member).imp_right .inl

theorem add (wal : Nat) (rpc : R) (rest : List R) :
    Ordered act isCommute app { w.add wal rpc with doing := .offering wal rest } := by
  have same : ({ w.add wal rpc with doing := .offering wal rest } : Sched R S B).handed = w.handed :=
    w.handed_add wal rpc _
  refine
    { numbered := fun i x at_ => ?_, passed := fun _ _ _ _ now => (by cases now)
      older := by rw [same]; exact ordered.older, overtakes := ordered.overtakes
      outcome := ordered.outcome }
  change (w.added ++ [_])[i]? = some x at at_
  rcases Nat.lt_or_ge i w.added.length with old | new
  · rw [List.getElem?_append_left old] at at_
    exact ordered.numbered i x at_
  · rw [List.getElem?_append_right new, List.getElem?_singleton] at at_
    split at at_
    · cases at_
      simp only
      omega
    · cases at_

theorem dispatch (flags : Flags w) {next : Node R}
    {later : List (Node R)} (waiting : w.waiting = next :: later)
    (doing : w.doing = .scheduling []) : Ordered act isCommute app (w.dispatch next later) := by
  have done := flags.handed_dispatch waiting
  have linked := (flags.dispatch waiting).linked
  -- everything older was run or commutes with the operation, and the rest is newer
  have behind : ∀ x ∈ w.handed, x ∈ w.executed ∨ isCommute next.rpc x.rpc = true := by
    intro x member
    have passed := ordered.passed next later [] waiting doing x member
    exact passed.resolve_left (List.not_mem_nil)
  have ahead : ∀ x ∈ w.handed, x.id < next.id := by
    have sorted := ordered.sorted
    rw [flags.added, waiting, List.pairwise_append] at sorted
    exact fun x member => sorted.2.2 x member next List.mem_cons_self
  refine
    { numbered := ordered.numbered, passed := ?_, older := ?_, overtakes := ordered.overtakes
      outcome := ordered.outcome }
  · intro next' later' rest now doing x member
    simp only [Sched.dispatch] at now
    subst now
    cases doing
    exact (linked x member).imp_right .inl
  · rw [done]
    intro y member x member' less
    rcases List.mem_append.mp member with old | new <;>
      rcases List.mem_append.mp member' with old' | new'
    · exact ordered.older y old x old' less
    · cases List.mem_singleton.mp new'
      exact absurd (ahead y old) (Nat.lt_asymm less)
    · cases List.mem_singleton.mp new
      exact behind x old'
    · cases List.mem_singleton.mp new
      cases List.mem_singleton.mp new'
      exact absurd less (Nat.lt_irrefl _)

theorem exec (flags : Flags w) {k : Nat}
    (at_ : w.rings[k]? = some x) : Ordered act isCommute app (w.exec act k x) := by
  have onTheWay : x ∈ w.rings := List.mem_of_getElem? at_
  have handed : x ∈ w.handed := flags.rings.mem_iff.mp (List.mem_append_left _ onTheWay)
  have notRun : x ∉ w.executed := by
    have once : (w.rings ++ w.executed).Nodup :=
      flags.rings.nodup_iff.mpr (ordered.nodup.sublist (List.take_sublist _ _))
    exact fun run => (List.nodup_append.mp once).2.2 x onTheWay x run rfl
  refine
    { numbered := ordered.numbered
      passed := fun next later rest waiting now y member =>
        (ordered.passed next later rest waiting now y member).imp_right (Or.imp_left executed_kept)
      older := fun y member z member' less => (ordered.older y member z member' less).imp_left executed_kept
      overtakes := ?_, outcome := ?_ }
  · rw [executed_exec, List.pairwise_append]
    refine ⟨ordered.overtakes, List.pairwise_singleton _ _, fun y run z last => ?_⟩
    cases List.mem_singleton.mp last
    have before := flags.executed_handed run
    rcases Nat.lt_trichotomy y.id x.id with less | same | greater
    · exact .inl less
    · cases ordered.id_inj (Flags.handed_added before) (Flags.handed_added handed) same
      exact absurd run notRun
    · exact .inr ((ordered.older y before x handed greater).resolve_left notRun)
  · obtain ⟨state, answers⟩ := Prod.mk.inj ordered.outcome
    rw [executed_exec, List.map_append, runAll_append, ← state, ← answers]
    simp [Sched.exec, Sched.responses, runAll, Node.op]

theorem move (flags : Flags w)
    (move : SchedMove act isCommute w w') : Ordered act isCommute app w' := by
  cases move with
  | offer rpcs few =>
    exact { ordered with passed := fun _ _ _ _ now => (by cases now) }
  | add wal rpc rest doing => exact ordered.add wal rpc rest
  | schedule => exact ordered.resume flags
  | pass next listNode later rest waiting doing allowed =>
    refine ordered.doing fun next' later' rest' waiting' now x member => ?_
    cases now
    cases waiting.symm.trans waiting'
    rcases ordered.passed next later _ waiting doing x member with listed | settled
    · rcases List.mem_cons.mp listed with rfl | listed
      · refine .inr (allowed.imp_left fun set => ?_)
        exact flags.ready x (Flags.handed_added member) set
      · exact .inl listed
    · exact .inr settled
  | dispatch next later waiting doing => exact ordered.dispatch flags waiting doing
  | unlink pos listNode doing at_ marked =>
    refine { ordered with passed := fun next later rest waiting now => ?_ }
    cases doing.symm.trans now
  | collect => exact ordered.doing fun _ _ _ _ now => by cases now
  | leave => exact ordered.doing fun _ _ _ _ now => by cases now
  | exec k x at_ => exact ordered.exec flags at_
  | mark k x at_ => exact { ordered with passed := ordered.passed }

end Ordered

theorem Ordered.run (run : Path (Sched.step act isCommute) OwnFlag (Sched.init app) w) :
    Ordered act isCommute app w := by
  refine (run.keeps (I := fun w => Flags w ∧ Ordered act isCommute app w) ⟨.init app, .init⟩ ?_).2
  rintro w l w' ⟨flags, ordered⟩ ok taken
  have move := SchedMove.of_step ok taken
  exact ⟨flags.move move, ordered.move flags move⟩

/-- When everything added was run, it was run once. -/
theorem Flags.all_run (flags : Flags w) (ordered : Ordered act isCommute app w)
    (all : ∀ x ∈ w.added, x ∈ w.executed) : w.executed.Perm w.added := by
  have once : (w.rings ++ w.executed).Nodup :=
    flags.rings.nodup_iff.mpr (ordered.nodup.sublist (List.take_sublist _ _))
  refine (List.perm_ext_iff_of_nodup (List.nodup_append.mp once).2.1 ordered.nodup).mpr fun x => ?_
  exact ⟨fun run => handed_added (flags.executed_handed run), all x⟩

/-- **Commuting schedule.** If the operations that `is_commute` lets pass each other do commute, then in
every run in which operations have their own flags and all of them finish, the application ends in the
state of running them one after another as they were added, and gives each the same response. -/
theorem schedule_is_sequential (sound : ∀ a b, isCommute a b = true → Commutes act a b)
    (run : Path (Sched.step act isCommute) OwnFlag (Sched.init app) w)
    (all : ∀ x ∈ w.added, x ∈ w.executed) :
    w.app = (runAll act app (w.added.map Node.op)).1 ∧
      w.responses.Perm (runAll act app (w.added.map Node.op)).2 := by
  have flags := Flags.run run
  have ordered := Ordered.run run
  have sorted : (w.added.map Node.op).Pairwise fun x y => x.2 < y.2 :=
    List.pairwise_map.mpr ordered.sorted
  have overtakes : (w.executed.map Node.op).Pairwise
      fun x y => x.2 < y.2 ∨ Commutes act x.1 y.1 :=
    List.pairwise_map.mpr (ordered.overtakes.imp fun less => less.imp_right (sound _ _))
  have same := runAll_eq_sorted (fun _ _ => Nat.lt_asymm) sorted
    ((flags.all_run ordered all).map Node.op) overtakes app
  rw [← ordered.outcome] at same
  exact same

/-- Two counters and the operations on them, where operations on different counters commute. -/
theorem schedule_is_sequential_counters : ∃ w : Sched (Bool × Nat) (Nat × Nat) Nat,
    w.executed.map Node.id = [1, 0, 2] ∧
    w.app = (12, 2) ∧ w.responses.Perm [(0, 0), (0, 1), (5, 2)] := by
  let act (s : Nat × Nat) (a : Bool × Nat) : (Nat × Nat) × Nat :=
    if a.1 then ((s.1, s.2 + a.2), s.2) else ((s.1 + a.2, s.2), s.1)
  let isCommute (a b : Bool × Nat) : Bool := a.1 != b.1
  have sound : ∀ a b, isCommute a b = true → Commutes act a b := by
    rintro ⟨on, k⟩ ⟨on', k'⟩ differ
    cases on <;> cases on'
    · cases differ
    · exact ⟨fun _ => rfl, fun _ => rfl, fun _ => rfl⟩
    · exact ⟨fun _ => rfl, fun _ => rfl, fun _ => rfl⟩
    · cases differ
  have ran : ∃ w ∈ exec (Sched.step act isCommute) OwnFlag (Sched.init (0, 0))
      [.offer [(false, 5)], .turn, .turn, .offer [(true, 2)], .turn, .turn, .offer [(false, 7)], .turn,
        .turn, .schedule, .turn, .turn, .turn, .turn, .turn, .exec 1, .mark 0, .exec 0, .mark 0, .gc,
        .turn, .turn, .turn, .schedule, .turn, .exec 0], w.executed.map Node.id = [1, 0, 2] ∧
          w.added = [⟨0, (false, 5), 0⟩, ⟨1, (true, 2), 1⟩, ⟨2, (false, 7), 2⟩] ∧
          ∀ x ∈ w.added, x ∈ w.executed := by
    decide +kernel
  obtain ⟨w, run, order, added, all⟩ := Path.exists_of_exec ran
  obtain ⟨state, responses⟩ := schedule_is_sequential sound run all
  rw [added] at state responses
  exact ⟨w, order, state, responses⟩

end Order

end Cyclone.Core
