/-
# Core.DispatchList — the list of the scheduler, pointer by pointer

`scheduler_st` keeps its operations in a doubly linked list between two nodes that hold none.
`add` puts a node behind `head`, `schedule()` walks `next_schedule` back towards `head`, and `gc()`
takes nodes out between `next_schedule` and `tail`.  All three run on the raft thread; the executors
set the flags in between, so a loop is taken one turn at a time.

`scheduler_list_invariant` says what the list looks like after any of this.  The last part is about
the loops around `add` that try again while the list is full: they run on the same thread, so nothing
leaves the list in the meantime.
-/
import Cyclone.Core.Scheduler
import Cyclone.Core.Walk
import Cyclone.Theory.Linked

namespace Cyclone.Core

open Cyclone.Theory

set_option autoImplicit false

/-- Where the raft thread is in `schedule()` or `gc()`. -/
inductive Scan where
  | idle
  | scheduling (listNode : Nat)
  | collecting (listNode : Nat)
deriving DecidableEq, Repr

/-- `scheduler_st` with the nodes by address; `none` is NULL. -/
structure SchedulerSt (R : Type) where
  next : Nat → Option Nat
  prev : Nat → Option Nat
  /-- The operation of a node; the two ends have none. -/
  op : Nat → Option (Node R)
  head : Nat
  tail : Nat
  nextSchedule : Nat
  size : Nat
  /-- `marked` of each `wal_entry_t`. -/
  marked : Nat → Bool
  scan : Scan
  /-- Where `rte_malloc` has put a node that is not freed. -/
  live : List Nat
  /-- Everything added, enqueued for an executor and freed, in order. -/
  added : List (Node R)
  dispatched : List (Node R)
  freed : List (Node R)

inductive SchedulerAct (R : Type) where
  /-- `add`, when `rte_malloc` gives this address. -/
  | add (newest : Nat) (rpc : R) (wal : Nat)
  | schedule
  | gc
  /-- The next turn of the loop the raft thread is in. -/
  | turn
  /-- A flag is set or cleared. -/
  | flag (wal : Nat) (value : Bool)
deriving DecidableEq, Repr

namespace SchedulerSt

variable {R : Type}

def init (head tail : Nat) : SchedulerSt R where
  next := Function.update (fun _ => none) head (some tail)
  prev := Function.update (fun _ => none) tail (some head)
  op := fun _ => none
  head := head
  tail := tail
  nextSchedule := head
  size := 0
  marked := fun _ => false
  scan := .idle
  live := [head, tail]
  added := []
  dispatched := []
  freed := []

/-- What `add` returns when there is no room. -/
def schedBufferFull : Nat := 1

/-- `add` and what it returns; nothing when it follows NULL. -/
def add (s : SchedulerSt R) (newest : Nat) (rpc : R) (wal : Nat) : Option (Nat × SchedulerSt R) :=
  if s.size = maxSchedBufferLength then some (schedBufferFull, s)
  else do
    let topNode ← s.next s.head
    let node : Node R := ⟨s.added.length, rpc, wal⟩
    some (0, { s with
      next := Function.update (Function.update s.next newest (some topNode)) s.head (some newest)
      prev := Function.update (Function.update s.prev newest (some s.head)) topNode (some newest)
      op := Function.update s.op newest (some node)
      nextSchedule := if s.nextSchedule = s.head then newest else s.nextSchedule
      size := s.size + 1
      live := newest :: s.live
      added := s.added ++ [node] })

/-- `next_schedule` goes to the executors and the walk over the older operations starts again. -/
def dispatch (s : SchedulerSt R) : Option (SchedulerSt R) := do
  let node ← s.op s.nextSchedule
  let nextSchedule ← s.prev s.nextSchedule
  let listNode ← s.next nextSchedule
  some { s with
    dispatched := s.dispatched ++ [node]
    nextSchedule := nextSchedule
    scan := .scheduling listNode }

def scheduleTurn (isCommute : R → R → Bool) (s : SchedulerSt R) (listNode : Nat) :
    Option (SchedulerSt R) :=
  if s.nextSchedule = s.head then some { s with scan := .idle }
  else
    match s.next listNode with
    | none => s.dispatch
    | some after => do
      let nextOp ← s.op s.nextSchedule
      let listOp ← s.op listNode
      -- NON_COMMUTE
      if s.marked listOp.wal = false ∧ isCommute nextOp.rpc listOp.rpc = false then
        some { s with scan := .idle }
      else some { s with scan := .scheduling after }

/-- The node is unlinked and freed. -/
def collect (s : SchedulerSt R) (listNode after : Nat) (node : Node R) : Option (SchedulerSt R) := do
  let prevNode ← s.prev listNode
  some { s with
    next := Function.update s.next prevNode (some after)
    prev := Function.update s.prev after (some prevNode)
    size := s.size - 1
    scan := .collecting after
    live := s.live.erase listNode
    freed := s.freed ++ [node] }

def gcTurn (s : SchedulerSt R) (listNode : Nat) : Option (SchedulerSt R) :=
  match s.next listNode with
  | none => some { s with scan := .idle }
  | some after => do
    let node ← s.op listNode
    if s.marked node.wal then s.collect listNode after node
    else some { s with scan := .collecting after }

/-- A turn of the loop the raft thread is in; nothing when it follows NULL. -/
def turn (isCommute : R → R → Bool) (s : SchedulerSt R) : Option (SchedulerSt R) :=
  match s.scan with
  | .idle => some s
  | .scheduling listNode => s.scheduleTurn isCommute listNode
  | .collecting listNode => s.gcTurn listNode

def step (isCommute : R → R → Bool) (s : SchedulerSt R) : SchedulerAct R → Option (SchedulerSt R)
  | .add newest rpc wal =>
    if s.scan = .idle ∧ newest ∉ s.live then (s.add newest rpc wal).map (·.2) else none
  | .schedule =>
    if s.scan = .idle then
      (s.next s.nextSchedule).map fun listNode => { s with scan := .scheduling listNode }
    else none
  | .gc =>
    if s.scan = .idle then
      (s.next s.nextSchedule).map fun listNode => { s with scan := .collecting listNode }
    else none
  | .turn => s.turn isCommute
  | .flag wal value => some { s with marked := Function.update s.marked wal value }

/-! ## The list -/

/-- The nodes from `head` to `tail`, when `waiting` are those from `next_schedule` to the newest and
`issued` those from `next_schedule->next` to the oldest. -/
def chain (s : SchedulerSt R) (waiting issued : List Nat) : List Nat :=
  s.head :: waiting.reverse ++ (issued ++ [s.tail])

/-- The list is in order. -/
structure Orderly (s : SchedulerSt R) (waiting issued : List Nat) : Prop where
  linked : DoublyLinked s.next s.prev (s.chain waiting issued)
  size : s.size = waiting.length + issued.length
  bounded : s.size ≤ maxSchedBufferLength
  /-- `next_schedule` is the oldest node that waits, or `head`. -/
  cursor : s.nextSchedule = waiting.headD s.head
  /-- Operations were dispatched in the order they were added, and the waiting nodes hold the others,
  oldest first. -/
  order : ∃ rest, s.added = s.dispatched ++ rest ∧ waiting.map s.op = rest.map some
  /-- No two operations added are the same. -/
  once : s.added.map (·.id) = List.range s.added.length
  /-- Every node nearer to `tail` than `next_schedule` has been dispatched. -/
  done : ∀ a ∈ issued, ∃ node ∈ s.dispatched, s.op a = some node
  /-- Nothing is freed that has not been dispatched. -/
  freed : s.freed ⊆ s.dispatched

/-- The nodes of the list are those allocated, and a loop is at a dispatched node or at `tail`. -/
structure Kept (s : SchedulerSt R) (waiting issued : List Nat) : Prop extends
    Orderly s waiting issued where
  live : s.live.Perm (s.chain waiting issued)
  scan : ∀ a, s.scan = .scheduling a ∨ s.scan = .collecting a → a ∈ issued ++ [s.tail]

section Steps

variable {isCommute : R → R → Bool} {s t : SchedulerSt R} {waiting issued : List Nat}

variable {head tail : Nat}

theorem init_kept (distinct : head ≠ tail) :
    (init head tail : SchedulerSt R).Kept [] [] where
  linked := {
    nodup := by simpa [chain, init] using distinct
    forward := linked_pair (by simp [init]) (by simp [init, distinct.symm])
    backward := linked_pair (by simp [init]) (by simp [init, distinct]) }
  size := rfl
  bounded := Nat.zero_le _
  cursor := rfl
  order := ⟨[], rfl, rfl⟩
  once := rfl
  done := by simp
  freed := List.Subset.refl _
  live := List.Perm.refl _
  scan := by rintro a (at_ | at_) <;> cases at_

/-- The part of the list that ends with `next_schedule`. -/
theorem exists_front (head : Nat) (waiting : List Nat) :
    ∃ front, head :: waiting.reverse = front ++ [waiting.headD head] := by
  cases waiting with
  | nil => exact ⟨[], rfl⟩
  | cons oldest later => exact ⟨head :: later.reverse, by simp⟩

namespace Orderly

theorem cursor_next (orderly : s.Orderly waiting issued) :
    s.next s.nextSchedule = (issued ++ [s.tail]).head? := by
  obtain ⟨front, split⟩ := exists_front s.head waiting
  have linked := orderly.linked
  rw [chain, split, ← orderly.cursor, List.append_assoc] at linked
  exact linked.next_eq

theorem next_tail (orderly : s.Orderly waiting issued) : s.next s.tail = none := by
  have linked : DoublyLinked s.next s.prev ((s.head :: waiting.reverse ++ issued) ++ [s.tail]) := by
    simpa [chain] using orderly.linked
  exact linked.next_eq

/-- The node behind a dispatched one. -/
theorem issued_next (orderly : s.Orderly waiting issued) {a : Nat} (member : a ∈ issued) :
    ∃ after ∈ issued ++ [s.tail], s.next a = some after := by
  obtain ⟨before, behind, rfl⟩ := List.append_of_mem member
  have linked : DoublyLinked s.next s.prev
      ((s.head :: waiting.reverse ++ before) ++ a :: (behind ++ [s.tail])) := by
    simpa [chain] using orderly.linked
  cases there : behind ++ [s.tail] with
  | nil => simp at there
  | cons after rest =>
    refine ⟨after, ?_, linked.next_eq.trans (congrArg List.head? there)⟩
    rw [List.append_assoc, List.cons_append, there]
    simp

end Orderly

variable {a : Nat}

theorem mem_chain :
    a ∈ s.chain waiting issued ↔ a = s.head ∨ a ∈ waiting ∨ a ∈ issued ∨ a = s.tail := by
  simp [chain]

theorem Kept.flagged (kept : s.Kept waiting issued) (marked : Nat → Bool) :
    ({ s with marked := marked } : SchedulerSt R).Kept waiting issued :=
  { kept with }

theorem Kept.moved (kept : s.Kept waiting issued) {scan : Scan}
    (place : ∀ a, scan = .scheduling a ∨ scan = .collecting a → a ∈ issued ++ [s.tail]) :
    ({ s with scan := scan } : SchedulerSt R).Kept waiting issued :=
  { kept with scan := place }

theorem Kept.stopped (kept : s.Kept waiting issued) :
    ({ s with scan := .idle } : SchedulerSt R).Kept waiting issued :=
  kept.moved (by rintro a (at_ | at_) <;> cases at_)

/-- `add` puts the operation behind `head`. -/
theorem Kept.add_kept (kept : s.Kept waiting issued) {newest : Nat} (fresh : newest ∉ s.live)
    (room : s.size ≠ maxSchedBufferLength) (rpc : R) (wal : Nat) :
    ∃ t, s.add newest rpc wal = some (0, t) ∧ t.Kept (waiting ++ [newest]) issued ∧
      t.scan = s.scan := by
  have unlisted : newest ∉ s.chain waiting issued := fun member => fresh (kept.live.mem_iff.mpr member)
  have others : newest ∉ waiting ∧ newest ∉ issued := by
    rw [mem_chain] at unlisted
    tauto
  have linked : DoublyLinked s.next s.prev ([] ++ s.chain waiting issued) := kept.linked
  have headless : s.head ∉ waiting := by
    have nodup := linked.nodup
    simp only [List.nil_append, chain, List.cons_append, List.nodup_cons, List.mem_append,
      List.mem_reverse] at nodup
    tauto
  have keeps {node : Option (Node R)} : (∀ a ∈ waiting, Function.update s.op newest node a = s.op a) ∧
      ∀ a ∈ issued, Function.update s.op newest node a = s.op a :=
    ⟨fun a member => Function.update_of_ne (ne_of_mem_of_not_mem member others.1) _ _,
      fun a member => Function.update_of_ne (ne_of_mem_of_not_mem member others.2) _ _⟩
  cases there : waiting.reverse ++ (issued ++ [s.tail]) with
  | nil => simp at there
  | cons topNode rest =>
    rw [chain, List.cons_append, there] at linked unlisted
    have top : s.next s.head = some topNode := linked.next_eq
    have grown : s.head :: newest :: topNode :: rest =
        s.head :: (waiting ++ [newest]).reverse ++ (issued ++ [s.tail]) := by
      rw [← there]
      simp
    refine ⟨_, by rw [add, if_neg room, top]; rfl, ?_, ?_⟩
    swap
    · rfl
    exact {
      linked := by
        rw [chain, ← grown]
        exact linked.insert unlisted
      size := by
        rw [List.length_append, kept.size]
        simp only [List.length_singleton]
        omega
      bounded := by
        have := kept.bounded
        show s.size + 1 ≤ _
        omega
      cursor := by
        show (if s.nextSchedule = s.head then newest else s.nextSchedule) = _
        rw [kept.cursor]
        cases waiting with
        | nil => exact if_pos rfl
        | cons oldest later => exact if_neg (ne_of_mem_of_not_mem List.mem_cons_self headless)
      order := by
        obtain ⟨rest, added, ops⟩ := kept.order
        refine ⟨rest ++ [⟨s.added.length, rpc, wal⟩], ?_, ?_⟩
        · show s.added ++ _ = _
          rw [added, List.append_assoc]
        · rw [List.map_append, List.map_append, ← ops, List.map_congr_left keeps.1]
          exact congrArg (_ ++ [·]) (Function.update_self ..)
      once := by
        show (s.added ++ [_]).map _ = List.range (s.added ++ [_]).length
        rw [List.map_append, kept.once, List.length_append, List.length_singleton, List.range_succ]
        rfl
      done := fun a member => by
        obtain ⟨node, dispatched, is⟩ := kept.done a member
        exact ⟨node, dispatched, (keeps.2 a member).trans is⟩
      freed := kept.freed
      live := by
        rw [chain, ← grown]
        have listed := kept.live
        rw [chain, List.cons_append, there] at listed
        exact (listed.cons newest).trans (List.Perm.swap ..)
      scan := kept.scan }

/-- The oldest waiting node is dispatched. -/
theorem Kept.dispatch_kept (kept : s.Kept waiting issued) (more : s.nextSchedule ≠ s.head) :
    ∃ t waiting' issued', s.dispatch = some t ∧ t.Kept waiting' issued' := by
  cases waiting with
  | nil => exact absurd kept.cursor more
  | cons oldest later =>
    have at_ : s.nextSchedule = oldest := kept.cursor
    obtain ⟨rest, added, ops⟩ := kept.order
    cases rest with
    | nil => cases ops
    | cons node rest =>
      obtain ⟨op, ops⟩ := List.cons.inj ops
      obtain ⟨front, split⟩ := exists_front s.head later
      have same : s.chain (oldest :: later) issued = s.chain later (oldest :: issued) := by
        simp [chain]
      have linked := kept.linked
      rw [same, chain, split] at linked
      have back : s.prev oldest = some (later.headD s.head) := by
        rw [List.cons_append] at linked
        exact linked.prev_eq.trans List.getLast?_concat
      have forth : s.next (later.headD s.head) = some oldest := by
        rw [List.append_assoc, List.cons_append] at linked
        exact linked.next_eq
      refine ⟨{ s with
        dispatched := s.dispatched ++ [node], nextSchedule := later.headD s.head,
        scan := .scheduling oldest }, later, oldest :: issued, ?_, ?_⟩
      · simp only [dispatch, at_, op, back, forth, Option.bind_eq_bind, Option.bind_some]
      exact {
        linked := same ▸ kept.linked
        size := by
          have := kept.size
          simp only [List.length_cons] at this ⊢
          omega
        bounded := kept.bounded
        cursor := rfl
        order := ⟨rest, by simpa using added, ops⟩
        once := kept.once
        done := by
          intro a member
          rcases List.mem_cons.mp member with rfl | member
          · exact ⟨node, by simp, op⟩
          · obtain ⟨node, dispatched, is⟩ := kept.done a member
            exact ⟨node, List.mem_append_left _ dispatched, is⟩
        freed := List.Subset.trans kept.freed (List.subset_append_left _ _)
        live := same ▸ kept.live
        scan := by
          rintro a (at_ | at_) <;> cases at_
          exact List.mem_cons_self }

variable {after : Nat}

/-- A dispatched node is unlinked and freed. -/
theorem Kept.collect_kept (kept : s.Kept waiting issued) {node : Node R} (member : a ∈ issued)
    (behind : s.next a = some after) (op : s.op a = some node) :
    ∃ t issued', s.collect a after node = some t ∧ t.Kept waiting issued' := by
  obtain ⟨before, rest, rfl⟩ := List.append_of_mem member
  obtain ⟨front, prevNode, split⟩ :=
    (List.eq_nil_or_concat (s.head :: waiting.reverse ++ before)).resolve_left (by simp)
  cases there : rest ++ [s.tail] with
  | nil => simp at there
  | cons b back =>
    have whole : s.chain waiting (before ++ a :: rest) = front ++ prevNode :: a :: b :: back := by
      calc s.chain waiting (before ++ a :: rest)
        _ = (s.head :: waiting.reverse ++ before) ++ a :: (rest ++ [s.tail]) := by simp [chain]
        _ = _ := by rw [split, there]; simp
    have without : s.chain waiting (before ++ rest) = front ++ prevNode :: b :: back := by
      calc s.chain waiting (before ++ rest)
        _ = (s.head :: waiting.reverse ++ before) ++ (rest ++ [s.tail]) := by simp [chain]
        _ = _ := by rw [split, there]; simp
    have linked := kept.linked
    rw [whole] at linked
    have prev : s.prev a = some prevNode := by
      rw [List.append_cons] at linked
      exact linked.prev_eq.trans List.getLast?_concat
    have is : after = b := by
      rw [List.append_cons] at linked
      exact Option.some.inj (behind.symm.trans linked.next_eq)
    subst is
    have smaller : ∀ x ∈ before ++ rest, x ∈ before ++ a :: rest := by
      intro x there
      simp only [List.mem_append, List.mem_cons] at there ⊢
      tauto
    refine ⟨_, before ++ rest, by simp only [collect, prev, Option.bind_eq_bind, Option.bind_some]; rfl, ?_⟩
    exact {
      linked := by
        show DoublyLinked _ _ (s.chain waiting (before ++ rest))
        rw [without]
        exact linked.remove
      size := by
        have := kept.size
        simp only [List.length_append, List.length_cons] at this ⊢
        omega
      bounded := Nat.le_trans (Nat.sub_le _ _) kept.bounded
      cursor := kept.cursor
      order := kept.order
      once := kept.once
      done := fun x there => kept.done x (smaller x there)
      freed := by
        obtain ⟨node', dispatched, is⟩ := kept.done a member
        obtain rfl := Option.some.inj (is.symm.trans op)
        exact List.append_subset.mpr ⟨kept.freed, List.cons_subset.mpr ⟨dispatched, List.nil_subset _⟩⟩
      live := by
        show (s.live.erase a).Perm (s.chain waiting (before ++ rest))
        have listed := kept.live
        rw [whole, List.append_cons] at listed
        have gone := (listed.trans List.perm_middle).erase a
        rwa [List.erase_cons_head, ← List.append_cons, ← without] at gone
      scan := by
        rintro x (at_ | at_) <;> cases at_
        rw [List.append_assoc, there]
        simp }

/-- The operation of `next_schedule`. -/
theorem Orderly.cursor_op (orderly : s.Orderly waiting issued) (more : s.nextSchedule ≠ s.head) :
    ∃ node, s.op s.nextSchedule = some node := by
  obtain ⟨rest, -, ops⟩ := orderly.order
  cases waiting with
  | nil => exact absurd orderly.cursor more
  | cons oldest later =>
    cases rest with
    | nil => cases ops
    | cons node rest =>
      rw [orderly.cursor]
      exact ⟨node, (List.cons.inj ops).1⟩

/-- A loop that is not at `tail` is at a dispatched node, and has one to go on to. -/
theorem Kept.scan_next (kept : s.Kept waiting issued) (member : a ∈ issued ++ [s.tail])
    (behind : s.next a = some after) :
    a ∈ issued ∧ after ∈ issued ++ [s.tail] ∧ ∃ node, s.op a = some node := by
  rcases List.mem_append.mp member with inside | last
  · obtain ⟨_, there, is⟩ := kept.issued_next inside
    obtain ⟨node, -, op⟩ := kept.done a inside
    obtain rfl := Option.some.inj (is.symm.trans behind)
    exact ⟨inside, there, node, op⟩
  · rw [List.mem_singleton.mp last, kept.next_tail] at behind
    cases behind

theorem Kept.turn_kept (isCommute : R → R → Bool) (kept : s.Kept waiting issued) :
    ∃ t waiting' issued', s.turn isCommute = some t ∧ t.Kept waiting' issued' := by
  unfold turn
  cases scan : s.scan with
  | idle => exact ⟨s, waiting, issued, rfl, kept⟩
  | scheduling a =>
    have member := kept.scan a (.inl scan)
    dsimp only
    unfold scheduleTurn
    split
    · exact ⟨_, waiting, issued, rfl, kept.stopped⟩
    · rename_i more
      split
      · exact kept.dispatch_kept more
      · rename_i after behind
        obtain ⟨-, there, listOp, op⟩ := kept.scan_next member behind
        obtain ⟨nextOp, nextOps⟩ := kept.cursor_op more
        simp only [nextOps, op, Option.bind_eq_bind, Option.bind_some]
        split
        · exact ⟨_, waiting, issued, rfl, kept.stopped⟩
        · exact ⟨_, waiting, issued, rfl, kept.moved (by rintro x (at_ | at_) <;> cases at_; exact there)⟩
  | collecting a =>
    have member := kept.scan a (.inr scan)
    dsimp only
    unfold gcTurn
    split
    · exact ⟨_, waiting, issued, rfl, kept.stopped⟩
    · rename_i after behind
      obtain ⟨inside, there, node, op⟩ := kept.scan_next member behind
      simp only [op, Option.bind_eq_bind, Option.bind_some]
      split
      · obtain ⟨t, issued', collected, kept'⟩ := kept.collect_kept inside behind op
        exact ⟨t, waiting, issued', collected, kept'⟩
      · exact ⟨_, waiting, issued, rfl, kept.moved (by rintro x (at_ | at_) <;> cases at_; exact there)⟩

theorem Kept.starts (kept : s.Kept waiting issued) {scan : Nat → Scan}
    (names : ∀ a b, scan a = .scheduling b ∨ scan a = .collecting b → b = a)
    (started : (s.next s.nextSchedule).map (fun a => { s with scan := scan a }) = some t) :
    t.Kept waiting issued := by
  obtain ⟨a, first, rfl⟩ := Option.map_eq_some_iff.mp started
  rw [kept.cursor_next] at first
  refine kept.moved fun b at_ => ?_
  rw [names a b at_]
  exact List.mem_of_mem_head? first

theorem Kept.step_kept (kept : s.Kept waiting issued) {act : SchedulerAct R}
    (taken : s.step isCommute act = some t) : ∃ waiting' issued', t.Kept waiting' issued' := by
  cases act with
  | add newest rpc wal =>
    simp only [step] at taken
    split at taken
    · rename_i free
      by_cases full : s.size = maxSchedBufferLength
      · rw [add, if_pos full] at taken
        cases taken
        exact ⟨waiting, issued, kept⟩
      · obtain ⟨_, is, kept', -⟩ := kept.add_kept free.2 full rpc wal
        rw [is] at taken
        cases taken
        exact ⟨waiting ++ [newest], issued, kept'⟩
    · cases taken
  | schedule =>
    simp only [step] at taken
    split at taken
    · exact ⟨waiting, issued, kept.starts (by simp) taken⟩
    · cases taken
  | gc =>
    simp only [step] at taken
    split at taken
    · exact ⟨waiting, issued, kept.starts (by simp) taken⟩
    · cases taken
  | turn =>
    obtain ⟨_, waiting', issued', is, kept'⟩ := kept.turn_kept isCommute
    obtain rfl := Option.some.inj (is.symm.trans taken)
    exact ⟨waiting', issued', kept'⟩
  | flag wal value =>
    cases taken
    exact ⟨waiting, issued, kept.flagged _⟩

theorem kept_of_run (distinct : head ≠ tail)
    (run : Theory.Path (step isCommute) anyStep (init head tail) s) :
    ∃ waiting issued, s.Kept waiting issued := by
  refine run.keeps (I := fun s => ∃ waiting issued, s.Kept waiting issued)
    ⟨[], [], init_kept distinct⟩ ?_
  rintro t act u ⟨waiting, issued, kept⟩ - taken
  exact kept.step_kept taken

/-- **The list of the scheduler.**  Whatever is added, scheduled, collected and flagged, in any order:
the list is in order, and the loops never follow NULL. -/
theorem scheduler_list_invariant {head tail : Nat} (distinct : head ≠ tail)
    (run : Theory.Path (step isCommute) anyStep (init head tail) s) :
    (∃ waiting issued, s.Orderly waiting issued) ∧ (s.turn isCommute).isSome := by
  obtain ⟨waiting, issued, kept⟩ := kept_of_run distinct run
  obtain ⟨t, _, _, turned, _⟩ := kept.turn_kept isCommute
  exact ⟨⟨waiting, issued, kept.toOrderly⟩, by rw [turned]; rfl⟩

/-- Two operations are added and dispatched, and the older one is collected. -/
theorem scheduler_list_invariant_two :
    ∃ s : SchedulerSt Nat, Theory.Path (step fun a b => a ≠ b) anyStep (init 0 1) s ∧
      (s.dispatched.map (·.id) = [0, 1] ∧ s.freed.map (·.id) = [0] ∧ s.size = 1) ∧
      ∃ waiting issued, s.Orderly waiting issued := by
  have ran : ∃ s : SchedulerSt Nat, s ∈ exec (step fun a b => a ≠ b) anyStep (init 0 1)
      [.add 2 10 0, .add 3 20 1, .schedule, .turn, .turn, .turn, .turn, .flag 0 true, .gc, .turn,
        .turn, .turn] ∧
      s.dispatched.map (·.id) = [0, 1] ∧ s.freed.map (·.id) = [0] ∧ s.size = 1 := by
    decide
  obtain ⟨s, run, facts⟩ := Path.exists_of_exec ran
  exact ⟨s, run, facts, (scheduler_list_invariant (by decide) run).1⟩

end Steps

end SchedulerSt

/-! ## A full list -/

/-- What goes through the loops around `add`. -/
inductive Load (R : Type) where
  /-- In `__raft_logentry_offer_batch`: the entries, each with its `wal_entry_t` and its RPCs with
  their core masks. -/
  | batch (entries : List (Nat × List (R × Nat)))
  /-- In `accept`: the read-only requests of a burst, each with its `wal_entry_t`. -/
  | burst (reads : List (R × Nat))

/-- The operations to add, each with its `wal_entry_t`; an RPC is added once for each of its cores. -/
def Load.ops {R : Type} : Load R → List (R × Nat)
  | .batch entries =>
    entries.flatMap fun e => e.2.flatMap fun r => (coresOf r.2).map fun _ => (r.1, e.1)
  | .burst reads => reads

/-- The raft thread in the loops, with the operations it still has to add. -/
structure Adding (R : Type) where
  sched : SchedulerSt R
  pending : List (R × Nat)

inductive AddingAct where
  /-- `add` is called, when `rte_malloc` would give this address. -/
  | attempt (newest : Nat)
  /-- An executor sets a flag. -/
  | complete (wal : Nat)
deriving DecidableEq, Repr

namespace Adding

variable {R : Type}

/-- Before each loop, `wal->marked = GC_IN_USE`. -/
def enter (s : SchedulerSt R) : List (R × Nat) → Adding R
  | [] => ⟨s, []⟩
  | op :: rest => ⟨{ s with marked := Function.update s.marked op.2 false }, op :: rest⟩

def step (a : Adding R) : AddingAct → Option (Adding R)
  | .attempt newest =>
    match a.pending with
    -- the thread has left the loops
    | [] => some a
    | op :: rest =>
      if newest ∈ a.sched.live then none
      else (a.sched.add newest op.1 op.2).map fun r =>
        if r.1 = 0 then enter r.2 rest else { a with sched := r.2 }
  | .complete wal =>
    some { a with sched := { a.sched with marked := Function.update a.sched.marked wal true } }

/-- The thread leaves the loops, however it and the executors take turns, if it keeps running and
they set the flag of every operation dispatched. -/
def Terminates (s : SchedulerSt R) (load : Load R) : Prop :=
  ∀ states acts, Endless step (enter s load.ops) states acts →
    (∀ n, ∃ m, n ≤ m ∧ ∃ newest, acts m = .attempt newest) →
    (∀ node ∈ s.dispatched, s.marked node.wal = true ∨ ∃ n, acts n = .complete node.wal) →
    ∃ n, (states n).pending = []

section Steps

variable {isCommute : R → R → Bool} {s : SchedulerSt R} {a b : Adding R} {act : AddingAct}
variable {ops : List (R × Nat)}

@[simp] theorem enter_pending : (enter s ops).pending = ops := by cases ops <;> rfl

@[simp] theorem enter_size : (enter s ops).sched.size = s.size := by cases ops <;> rfl

theorem enter_kept {waiting issued : List Nat} (kept : s.Kept waiting issued) :
    (enter s ops).sched.Kept waiting issued := by
  cases ops with
  | nil => exact kept
  | cons op rest => exact kept.flagged _

/-- The scheduler's list is in order. -/
def InOrder (a : Adding R) : Prop := ∃ waiting issued, a.sched.Kept waiting issued

variable {newest : Nat}

/-- An attempt with something left to add: nothing changes when the list is full, and the operation
goes into it otherwise. -/
theorem attempt_cases {op : R × Nat} {rest : List (R × Nat)} (left : a.pending = op :: rest)
    (taken : a.step (.attempt newest) = some b) :
    (a.sched.size = maxSchedBufferLength ∧ b = a) ∨
      (a.sched.size ≠ maxSchedBufferLength ∧ b.sched.size = a.sched.size + 1 ∧ b.pending = rest) := by
  simp only [step, left] at taken
  split at taken
  · cases taken
  · obtain ⟨r, added, rfl⟩ := Option.map_eq_some_iff.mp taken
    unfold SchedulerSt.add at added
    split at added
    · rename_i full
      cases added
      exact .inl ⟨full, by rw [if_neg (show SchedulerSt.schedBufferFull ≠ 0 by decide), ← left]⟩
    · rename_i room
      obtain ⟨topNode, -, same⟩ := Option.bind_eq_some_iff.mp added
      cases same
      exact .inr ⟨room, enter_size, enter_pending⟩

theorem step_cases (taken : a.step act = some b) :
    (b.sched.size = a.sched.size ∧ b.pending = a.pending) ∨
      ∃ op, a.pending = op :: b.pending ∧ b.sched.size = a.sched.size + 1 := by
  cases act with
  | complete wal =>
    cases taken
    exact .inl ⟨rfl, rfl⟩
  | attempt newest =>
    cases left : a.pending with
    | nil =>
      simp only [step, left] at taken
      cases taken
      exact .inl ⟨rfl, left⟩
    | cons op rest =>
      rcases attempt_cases left taken with ⟨-, rfl⟩ | ⟨-, size, rfl⟩
      · exact .inl ⟨rfl, left⟩
      · exact .inr ⟨op, rfl, size⟩

/-- What is in the list and what is left to add stays the same number. -/
theorem step_total (taken : a.step act = some b) :
    b.sched.size + b.pending.length = a.sched.size + a.pending.length := by
  rcases step_cases taken with ⟨size, pending⟩ | ⟨op, pending, size⟩
  · rw [size, pending]
  · rw [size, pending, List.length_cons]
    omega

variable {load : Load R}

/-- With room for all of them the loops come to an end. -/
theorem terminates_of_room (room : s.size + load.ops.length ≤ maxSchedBufferLength) :
    Terminates s load := by
  intro states acts run again _
  have total := run.keeps (I := fun a => a.sched.size + a.pending.length ≤ maxSchedBufferLength)
    (by simpa using room) fun t l u below taken => Nat.le_trans (Nat.le_of_eq (step_total taken)) below
  suffices ∃ n, (states n).pending.length = 0 from
    this.imp fun n none => List.length_eq_zero_iff.mp none
  refine Endless.reaches_zero (fun a : Adding R => a.pending.length) again (fun n => ?_) ?_
  · rcases step_cases (run.steps n) with ⟨-, pending⟩ | ⟨op, pending, -⟩
    · exact Nat.le_of_eq (congrArg List.length pending)
    · rw [pending]
      exact Nat.le_succ _
  · rintro n ⟨newest, attempt⟩ left
    have taken := run.steps n
    have below := total n
    rw [attempt] at taken
    cases pending : (states n).pending with
    | nil => simp [pending] at left
    | cons op rest =>
      rw [pending, List.length_cons] at below
      rcases attempt_cases pending taken with ⟨full, -⟩ | ⟨-, -, fewer⟩
      · omega
      · rw [fewer]
        exact Nat.lt_succ_self _

/-- An address no node has. -/
def fresh (live : List Nat) : Nat := live.max?.getD 0 + 1

theorem fresh_notMem (live : List Nat) : fresh live ∉ live := by
  intro member
  have := List.le_max?_getD_of_mem (k := 0) member
  unfold fresh at this
  omega

/-- The thread tries with every second step, and the flags are set one after the other. -/
def turns (n : Nat) (a : Adding R) : AddingAct :=
  if n % 2 = 0 then .attempt (fresh a.sched.live) else .complete (n / 2)

/-- An attempt with an address that is free leaves the list in order. -/
theorem attempt_kept (kept : a.InOrder) (free : newest ∉ a.sched.live) :
    ∃ b, a.step (.attempt newest) = some b ∧ b.InOrder := by
  obtain ⟨waiting, issued, kept⟩ := kept
  cases left : a.pending with
  | nil => exact ⟨a, by simp only [step, left], waiting, issued, kept⟩
  | cons op rest =>
    simp only [step, left, if_neg free]
    by_cases full : a.sched.size = maxSchedBufferLength
    · rw [SchedulerSt.add, if_pos full]
      exact ⟨_, rfl, waiting, issued, kept⟩
    · obtain ⟨t, added, kept', -⟩ := kept.add_kept free full op.1 op.2
      rw [added]
      exact ⟨_, rfl, _, _, enter_kept kept'⟩

theorem turns_goes (n : Nat) (kept : a.InOrder) : ∃ b, a.step (turns n a) = some b ∧ b.InOrder := by
  unfold turns
  split
  · exact attempt_kept kept (fresh_notMem _)
  · obtain ⟨waiting, issued, kept⟩ := kept
    exact ⟨_, rfl, waiting, issued, kept.flagged _⟩

/-- Without room for all of them the thread may stay in the loops for ever. -/
theorem not_terminates_of_full (kept : ∃ waiting issued, s.Kept waiting issued)
    (full : maxSchedBufferLength < s.size + load.ops.length) : ¬Terminates s load := by
  intro terminates
  have entered : (enter s load.ops).InOrder := kept.imp fun _ => Exists.imp fun _ => enter_kept
  have keeps (n : Nat) (a : Adding R)
      (inside : a.InOrder ∧ a.sched.size + a.pending.length = s.size + load.ops.length) :
      ∃ b, a.step (turns n a) = some b ∧
        b.InOrder ∧ b.sched.size + b.pending.length = s.size + load.ops.length := by
    obtain ⟨b, taken, kept⟩ := turns_goes n inside.1
    exact ⟨b, taken, kept, (step_total taken).trans inside.2⟩
  obtain ⟨states, run, inside⟩ := Endless.exists_of_goes turns ⟨entered, by simp⟩ keeps
  obtain ⟨n, none⟩ := terminates states _ run
    (fun n => ⟨2 * n, by omega, _, if_pos (by omega)⟩)
    (fun node _ => .inr ⟨2 * node.wal + 1, by
      rw [turns, if_neg (by omega)]
      congr 1
      omega⟩)
  obtain ⟨⟨waiting, issued, kept⟩, total⟩ := inside n
  have := kept.bounded
  rw [none, List.length_nil] at total
  omega

/-- **The loops around `add`.**  They come to an end exactly when there is room for all the operations
at once: the thread in them is the one that runs `gc()`, whatever flags are set meanwhile. -/
theorem retry_terminates_iff {head tail : Nat} (distinct : head ≠ tail)
    (run : Theory.Path (SchedulerSt.step isCommute) anyStep (.init head tail) s) (load : Load R) :
    Terminates s load ↔ s.size + load.ops.length ≤ maxSchedBufferLength := by
  constructor
  · intro terminates
    by_contra full
    exact not_terminates_of_full (SchedulerSt.kept_of_run distinct run) (by omega) terminates
  · exact terminates_of_room

/-- One RPC for two cores, and an empty list. -/
theorem retry_terminates_two :
    Theory.Path (SchedulerSt.step fun _ _ => true) anyStep (.init 0 1) (.init 0 1 : SchedulerSt Nat) ∧
      Terminates (.init 0 1 : SchedulerSt Nat) (.batch [(0, [(7, 3)])]) := by
  have run : Theory.Path (SchedulerSt.step fun _ _ => true) anyStep (.init 0 1)
      (.init 0 1 : SchedulerSt Nat) := .refl
  exact ⟨run, (retry_terminates_iff (by decide) run _).mpr (by decide)⟩

/-- Lists of every size up to the limit are reached. -/
theorem exists_reached {head tail : Nat} (distinct : head ≠ tail) (rpc : R) (k : Nat)
    (small : k ≤ maxSchedBufferLength) :
    ∃ s : SchedulerSt R, Theory.Path (SchedulerSt.step isCommute) anyStep (.init head tail) s ∧
      s.scan = .idle ∧ s.size = k := by
  induction k with
  | zero => exact ⟨_, .refl, rfl, rfl⟩
  | succ k ih =>
    obtain ⟨s, run, idle, size⟩ := ih (by omega)
    obtain ⟨waiting, issued, kept⟩ := SchedulerSt.kept_of_run distinct run
    obtain ⟨t, added, kept', scan⟩ := kept.add_kept (fresh_notMem s.live) (by omega) rpc 0
    refine ⟨t, .tail run trivial (l := .add (fresh s.live) rpc 0) ?_, scan.trans idle, ?_⟩
    · rw [SchedulerSt.step, if_pos ⟨idle, fresh_notMem _⟩, added]
      rfl
    · rw [kept'.size, List.length_append, List.length_singleton, ← size, kept.size]
      omega

/-- The list is full, and one more operation is to be added. -/
theorem retry_never_ends :
    ∃ s : SchedulerSt Nat, Theory.Path (SchedulerSt.step fun _ _ => true) anyStep (.init 0 1) s ∧
      s.size = maxSchedBufferLength ∧ ¬Terminates s (.batch [(0, [(7, 1)])]) := by
  have distinct : 0 ≠ 1 := by decide
  obtain ⟨s, run, -, size⟩ := exists_reached distinct 7 _ (Nat.le_refl _)
  exact ⟨s, run, size, not_terminates_of_full (SchedulerSt.kept_of_run (by decide) run)
    (by rw [size]; decide)⟩

end Steps

end Adding

end Cyclone.Core
