/-
# Pmemds.AdjVector — the graph of `adjvector.cc`

`list_array` has a slot for each vertex: empty, or a vector of the vertices its edges lead to.  No two
slots share a vector, so a slot holds the list itself.  `add_edge` creates the vectors of both ends when
it finds their slots empty, and appends to the source's.

Two requests with different sources are taken to commute, and then run in two threads at once.
`EdgeThread` is `add_edge` cut where another thread may come between: the source slot is read, created,
the destination slot is read, created, and last the edge is appended.  The check of a slot and its
creation are two steps, so a thread may put a fresh vector over one that the other thread has created
and appended to in between.

* `edges_survive_iff`: all interleavings end as the two requests do one after the other exactly when no
  request's destination is an empty slot that the other has as its source.
-/
import Cyclone.Theory.Run
import Mathlib.Logic.Function.Basic
import Mathlib.Tactic.Common

namespace Cyclone.Pmemds

open Cyclone.Theory

set_option autoImplicit false

/-! ## The graph -/

/-- `MAX_NODES`. -/
def maxNodes : Nat := 15066954

/-- `list_array`. -/
abbrev Graph := Nat → Option (List Nat)

/-- The arguments of an `ADD_EDGE` request. -/
structure Edge where
  fromNode : Nat
  toNode : Nat
deriving DecidableEq, Repr

/-- Not "out of valid node range". -/
def Edge.InRange (e : Edge) : Prop := ¬ (e.fromNode > maxNodes - 1 ∨ e.toNode > maxNodes - 1)

instance (e : Edge) : Decidable e.InRange := by unfold Edge.InRange; infer_instance

namespace Graph

/-- A slot gets a fresh vector. -/
def create (g : Graph) (node : Nat) : Graph := Function.update g node (some [])

def createIf (absent : Bool) (g : Graph) (node : Nat) : Graph := if absent then g.create node else g

/-- `push_back` through the pointer in the slot; nothing when it is null. -/
def append (g : Graph) (e : Edge) : Option Graph :=
  (g e.fromNode).map fun vec => Function.update g e.fromNode (some (vec ++ [e.toNode]))

/-- `add_edge`, with whether it reports `OK`; no result when it follows a null pointer. -/
def addEdge (g : Graph) (e : Edge) : Option (Graph × Bool) :=
  if e.InRange then
    let g := createIf (g e.fromNode).isNone g e.fromNode
    let g := createIf (g e.toNode).isNone g e.toNode
    (g.append e).map (·, true)
  else some (g, false)

/-- `vertex_outdegree`, of a vertex in range. -/
def vertexOutdegree (g : Graph) (node : Nat) : Nat := ((g node).getD []).length

end Graph

/-! ## Two requests at once -/

/-- Where a thread stands in `add_edge`: it has entered, has read the source slot, has a source, has read
the destination slot, has both, or has returned. -/
inductive EdgeThread
  | entered
  | readSource (absent : Bool)
  | hasSource
  | readDest (absent : Bool)
  | hasBoth
  | returned (ok : Bool)
deriving DecidableEq, Repr

/-- A step of a thread.  None is left to one that has returned; the last one follows a pointer. -/
def EdgeThread.step (e : Edge) (g : Graph) : EdgeThread → Option (Graph × EdgeThread)
  | .entered =>
    some (g, if e.InRange then .readSource (g e.fromNode).isNone else .returned false)
  | .readSource absent => some (g.createIf absent e.fromNode, .hasSource)
  | .hasSource => some (g, .readDest (g e.toNode).isNone)
  | .readDest absent => some (g.createIf absent e.toNode, .hasBoth)
  | .hasBoth => (g.append e).map (·, .returned true)
  | .returned _ => none

/-- Threads over one graph. -/
structure Race (ι : Type) where
  graph : Graph
  thread : ι → EdgeThread

section Race

set_option linter.unusedSectionVars false

variable {ι : Type} [DecidableEq ι] (edge : ι → Edge)

/-- The next step of thread `i`. -/
def Race.step (w : Race ι) (i : ι) : Option (Race ι) :=
  ((w.thread i).step (edge i) w.graph).map fun r =>
    { graph := r.1, thread := Function.update w.thread i r.2 }

def Race.start (g : Graph) : Race ι := ⟨g, fun _ => .entered⟩

/-- The thread is past the creation of the slot of `node`. -/
def EdgeThread.Made (e : Edge) (node : Nat) : EdgeThread → Prop
  | .hasSource | .readDest _ => node = e.fromNode
  | .hasBoth | .returned true => node = e.fromNode ∨ node = e.toNode
  | .entered | .readSource _ | .returned false => False

/-- The thread found its edge to be in range. -/
def EdgeThread.Accepted : EdgeThread → Prop
  | .entered | .returned false => False
  | _ => True

/-- Some request's destination is a slot that is empty and that another has as its source. -/
def Collides (g : Graph) : Prop :=
  ∃ i j, i ≠ j ∧ (edge i).InRange ∧ (edge j).InRange ∧ (edge i).toNode = (edge j).fromNode ∧
    g (edge j).fromNode = none

/-- What holds of a thread over the graph `now`, when the graph was `g` at the start: an empty slot it saw
was empty then, and what it appended is still there. -/
structure EdgeThread.Stands (g now : Graph) (e : Edge) (t : EdgeThread) : Prop where
  source : ∀ absent, t = .readSource absent → absent = (g e.fromNode).isNone
  dest : t = .readDest true → g e.toNode = none ∧ e.toNode ≠ e.fromNode
  kept : t = .readDest false → (now e.toNode).isSome
  appended : t = .returned true → now e.fromNode = some ((g e.fromNode).getD [] ++ [e.toNode])
  accepted : t.Accepted → e.InRange
  refused : t = .returned false → ¬ e.InRange

/-- How the graph of a race fits the graph it started from.  A slot is there if it was, or if a thread is
past its creation; it holds what it did until the thread with that source has appended. -/
structure Race.Fits (g : Graph) (w : Race ι) : Prop where
  present : ∀ v, (w.graph v).isSome ↔ (g v).isSome ∨ ∃ i, (w.thread i).Made (edge i) v
  plain : ∀ v vec, w.graph v = some vec →
    (∀ i, (edge i).fromNode = v → w.thread i ≠ .returned true) → vec = (g v).getD []
  threads : ∀ i, (w.thread i).Stands g w.graph (edge i)

variable {edge} {g : Graph} {w w' : Race ι}

theorem Race.fits_start : Race.Fits edge g (Race.start g) where
  present := by simp [Race.start, EdgeThread.Made]
  plain v vec held _ := by
    change g v = some vec at held
    rw [held]
    rfl
  threads i := by constructor <;> simp [Race.start, EdgeThread.Accepted]

variable {e : Edge} {node : Nat} {t : EdgeThread}

theorem EdgeThread.Made.accepted (made : t.Made e node) : t.Accepted := by
  cases t with
  | entered | readSource _ => exact made.elim
  | returned ok =>
    cases ok with
    | false => exact made.elim
    | true => trivial
  | _ => trivial

theorem EdgeThread.Made.eq (made : t.Made e node) : node = e.fromNode ∨ node = e.toNode := by
  cases t with
  | entered | readSource _ => exact made.elim
  | hasSource | readDest _ => exact .inl made
  | hasBoth => exact made
  | returned ok =>
    cases ok with
    | false => exact made.elim
    | true => exact made

theorem Graph.isSome_createIf (absent : Bool) (h : Graph) (node v : Nat) :
    (h.createIf absent node v).isSome ↔ (h v).isSome ∨ (absent = true ∧ v = node) := by
  cases absent with
  | false => simp [Graph.createIf]
  | true =>
    by_cases same : v = node
    · simp [Graph.createIf, Graph.create, same]
    · simp [Graph.createIf, Graph.create, same]

variable {absent : Bool}

theorem Graph.createIf_of_not {v : Nat} (other : ¬ (absent = true ∧ v = node)) (h : Graph) :
    h.createIf absent node v = h v := by
  cases absent with
  | false => rfl
  | true => exact Function.update_of_ne (fun eq => other ⟨rfl, eq⟩) _ _

/-- Another slot is created, or the same with nothing appended to it. -/
theorem EdgeThread.Stands.createIf {now : Graph} (stands : t.Stands g now e)
    (fresh : absent = true → e.fromNode = node → t ≠ .returned true) :
    t.Stands g (now.createIf absent node) e where
  source := stands.source
  dest := stands.dest
  kept read := (Graph.isSome_createIf _ _ _ _).mpr (.inl (stands.kept read))
  appended returned := by
    rw [Graph.createIf_of_not fun ⟨created, same⟩ => fresh created same returned]
    exact stands.appended returned
  accepted := stands.accepted
  refused := stands.refused

/-- What a step that appends nothing has to keep to: it creates a slot only where there was none and no
thread has appended, and afterwards it is past the creations that it was past and this one. -/
structure Race.Advance (edge : ι → Edge) (g : Graph) (w : Race ι) (i : ι) (absent : Bool) (node : Nat)
    (t : EdgeThread) : Prop where
  fresh : absent = true → g node = none ∧ ∀ j, (edge j).fromNode = node → w.thread j ≠ .returned true
  mono : ∀ v, (w.thread i).Made (edge i) v → t.Made (edge i) v
  backed : ∀ v, t.Made (edge i) v → (w.graph v).isSome ∨ (absent = true ∧ v = node)
  grown : absent = true → t.Made (edge i) node
  running : w.thread i ≠ .returned true
  stands : t.Stands g (w.graph.createIf absent node) (edge i)

variable {i : ι}

theorem Race.Fits.advance (fits : w.Fits edge g) (step : Race.Advance edge g w i absent node t) :
    Race.Fits edge g ⟨w.graph.createIf absent node, Function.update w.thread i t⟩ where
  present v := by
    rw [Function.exists_update_iff w.thread fun j t => t.Made (edge j) v, Graph.isSome_createIf,
      fits.present]
    constructor
    · rintro ((was | ⟨j, made⟩) | ⟨created, rfl⟩)
      · exact .inl was
      · by_cases same : j = i
        · subst same
          exact .inr (.inl (step.mono v made))
        · exact .inr (.inr ⟨j, same, made⟩)
      · exact .inr (.inl (step.grown created))
    · rintro (was | made | ⟨j, _, made⟩)
      · exact .inl (.inl was)
      · exact (step.backed v made).imp (fits.present v).mp id
      · exact .inl (.inr ⟨j, made⟩)
  plain v vec held unfinished := by
    by_cases created : absent = true ∧ v = node
    · obtain ⟨rfl, rfl⟩ := created
      have empty : vec = [] := by
        simpa [Graph.createIf, Graph.create] using held.symm
      rw [empty, (step.fresh rfl).1]
      rfl
    · have same : w.graph v = some vec := (Graph.createIf_of_not created w.graph).symm.trans held
      refine fits.plain v vec same fun j source returned => unfinished j source ?_
      have other : j ≠ i := fun eq => step.running (eq ▸ returned)
      exact (Function.update_of_ne other t w.thread).trans returned
  threads := (Function.forall_update_iff w.thread
    fun j t => t.Stands g (w.graph.createIf absent node) (edge j)).mpr
      ⟨step.stands, fun j _ => (fits.threads j).createIf fun created => (step.fresh created).2 j⟩

/-- The last step. -/
theorem Race.Fits.append {vec : List Nat}
    (apart : ∀ j, (edge j).fromNode = (edge i).fromNode → j = i) (fits : w.Fits edge g)
    (ready : w.thread i = .hasBoth) (held : w.graph (edge i).fromNode = some vec) :
    Race.Fits edge g
      ⟨Function.update w.graph (edge i).fromNode (some (vec ++ [(edge i).toNode])),
        Function.update w.thread i (.returned true)⟩ where
  present v := by
    rw [Function.exists_update_iff w.thread fun j t => t.Made (edge j) v]
    have slot : (Function.update w.graph (edge i).fromNode (some (vec ++ [(edge i).toNode])) v).isSome ↔
        (w.graph v).isSome := by
      by_cases same : v = (edge i).fromNode
      · simp [same, held]
      · simp [same]
    rw [slot, fits.present]
    refine or_congr_right ⟨fun ⟨j, made⟩ => ?_, ?_⟩
    · by_cases same : j = i
      · subst same
        rw [ready] at made
        exact .inl made
      · exact .inr ⟨j, same, made⟩
    · rintro (made | ⟨j, _, made⟩)
      · exact ⟨i, by rw [ready]; exact made⟩
      · exact ⟨j, made⟩
  plain v vec' found unfinished := by
    have other : v ≠ (edge i).fromNode := fun eq => unfinished i eq.symm (Function.update_self ..)
    refine fits.plain v vec' (by simpa [other] using found) fun j source returned => unfinished j source ?_
    have different : j ≠ i := by
      rintro rfl
      exact other source.symm
    exact (Function.update_of_ne different _ w.thread).trans returned
  threads := by
    have same : vec = (g (edge i).fromNode).getD [] := by
      refine fits.plain _ vec held fun j source returned => ?_
      rw [apart j source, ready] at returned
      cases returned
    refine (Function.forall_update_iff w.thread fun j t => t.Stands g (Function.update w.graph
      (edge i).fromNode (some (vec ++ [(edge i).toNode]))) (edge j)).mpr ⟨?_, fun j different => ?_⟩
    · refine ⟨nofun, nofun, nofun, fun _ => ?_, fun _ => ?_, nofun⟩
      · rw [same]
        exact Function.update_self ..
      · exact (fits.threads i).accepted (by rw [ready]; trivial)
    · have stands := fits.threads j
      have other : (edge j).fromNode ≠ (edge i).fromNode := fun eq => different (apart j eq)
      refine { stands with kept := fun read => ?_, appended := fun returned => ?_ }
      · have there := stands.kept read
        by_cases same : (edge j).toNode = (edge i).fromNode
        · simp [same]
        · simpa [same] using there
      · exact (Function.update_of_ne other _ w.graph).trans (stands.appended returned)

/-- The source slot of a thread that has not created it is as it was at the start. -/
theorem Race.Fits.source_untouched (apart : ∀ i j, (edge i).fromNode = (edge j).fromNode → i = j)
    (free : ¬ Collides edge g) (fits : w.Fits edge g) (inRange : (edge i).InRange)
    (before : ¬ (w.thread i).Made (edge i) (edge i).fromNode) :
    (w.graph (edge i).fromNode).isNone = (g (edge i).fromNode).isNone := by
  have same : (w.graph (edge i).fromNode).isSome ↔ (g (edge i).fromNode).isSome := by
    rw [fits.present]
    refine ⟨?_, .inl⟩
    rintro (was | ⟨j, made⟩)
    · exact was
    · by_contra empty
      have other : j ≠ i := by
        rintro rfl
        exact before made
      have accepted := (fits.threads j).accepted made.accepted
      have target : (edge i).fromNode = (edge j).toNode :=
        made.eq.resolve_left fun eq => other (apart _ _ eq).symm
      exact free ⟨j, i, other, accepted, inRange, target.symm, by simpa using empty⟩
  rw [← Option.not_isSome, ← Option.not_isSome, Bool.eq_iff_iff.mpr same]

theorem Race.Fits.step (apart : ∀ i j, (edge i).fromNode = (edge j).fromNode → i = j)
    (free : ¬ Collides edge g) (fits : w.Fits edge g) (taken : w.step edge i = some w') :
    w'.Fits edge g := by
  obtain ⟨⟨graph, t⟩, moved, rfl⟩ := Option.map_eq_some_iff.mp taken
  have stands := fits.threads i
  cases standing : w.thread i with
  | entered =>
    rw [standing] at moved
    obtain ⟨rfl, rfl⟩ := Prod.mk.inj (Option.some.inj moved)
    have before : ¬ (w.thread i).Made (edge i) (edge i).fromNode := by simp [standing, EdgeThread.Made]
    -- a step that only reads is one that creates no slot
    refine fits.advance (show Race.Advance edge g w i false 0 _ from ⟨nofun, ?_, ?_, nofun, ?_, ?_⟩)
    · simp [standing, EdgeThread.Made]
    · split <;> simp [EdgeThread.Made]
    · simp [standing]
    · by_cases inRange : (edge i).InRange
      · rw [if_pos inRange]
        refine ⟨fun absent read => ?_, nofun, nofun, nofun, fun _ => inRange, nofun⟩
        rw [← EdgeThread.readSource.inj read]
        exact fits.source_untouched apart free inRange before
      · rw [if_neg inRange]
        exact ⟨nofun, nofun, nofun, nofun, nofun, fun _ => inRange⟩
  | readSource absent =>
    rw [standing] at moved
    obtain ⟨rfl, rfl⟩ := Prod.mk.inj (Option.some.inj moved)
    have inRange := stands.accepted (by rw [standing]; trivial)
    have flag := stands.source absent standing
    have now := fits.source_untouched apart free inRange (by simp [standing, EdgeThread.Made])
    refine fits.advance ⟨fun created => ⟨?_, fun j source returned => ?_⟩, ?_, ?_, ?_, ?_, ?_⟩
    · simpa [flag] using created
    · rw [apart j i source, standing] at returned
      cases returned
    · simp [standing, EdgeThread.Made]
    · intro v made
      cases created : absent with
      | true => exact .inr ⟨rfl, made⟩
      | false =>
        left
        rw [show v = (edge i).fromNode from made, ← Option.not_isNone, now, ← flag, created]
        rfl
    · exact fun _ => rfl
    · simp [standing]
    · exact ⟨nofun, nofun, nofun, nofun, fun _ => inRange, nofun⟩
  | hasSource =>
    rw [standing] at moved
    obtain ⟨rfl, rfl⟩ := Prod.mk.inj (Option.some.inj moved)
    have source : (w.graph (edge i).fromNode).isSome :=
      (fits.present _).mpr (.inr ⟨i, by rw [standing]; rfl⟩)
    refine fits.advance (show Race.Advance edge g w i false 0 _ from ⟨nofun, ?_, ?_, nofun, ?_, ?_⟩)
    · simp [standing, EdgeThread.Made]
    · intro v made
      exact .inl (by rwa [show v = (edge i).fromNode from made])
    · simp [standing]
    · refine ⟨nofun, fun read => ?_, fun read => ?_, nofun, fun _ => ?_, nofun⟩
      · have empty : w.graph (edge i).toNode = none := by simpa using EdgeThread.readDest.inj read
        refine ⟨?_, fun same => ?_⟩
        · by_contra was
          have := (fits.present _).mpr (.inl (Option.isSome_iff_ne_none.mpr was))
          simp [empty] at this
        · rw [same] at empty
          simp [empty] at source
      · simpa [Option.isSome_iff_ne_none, Graph.createIf] using EdgeThread.readDest.inj read
      · exact stands.accepted (by rw [standing]; trivial)
  | readDest absent =>
    rw [standing] at moved
    obtain ⟨rfl, rfl⟩ := Prod.mk.inj (Option.some.inj moved)
    have inRange := stands.accepted (by rw [standing]; trivial)
    have source : (w.graph (edge i).fromNode).isSome :=
      (fits.present _).mpr (.inr ⟨i, by rw [standing]; rfl⟩)
    refine fits.advance ⟨?_, ?_, ?_, fun _ => .inr rfl, ?_, ?_⟩
    · rintro rfl
      obtain ⟨empty, _⟩ := stands.dest standing
      -- a thread that had appended to the slot this one creates would collide with it
      refine ⟨empty, fun j source returned => free ⟨i, j, ?_, inRange, ?_, source.symm, ?_⟩⟩
      · rintro rfl
        rw [standing] at returned
        cases returned
      · exact (fits.threads j).accepted (by rw [returned]; trivial)
      · rwa [source]
    · simp +contextual [standing, EdgeThread.Made]
    · rintro v (rfl | rfl)
      · exact .inl source
      · cases created : absent with
        | true => exact .inr ⟨rfl, rfl⟩
        | false => exact .inl (stands.kept (created ▸ standing))
    · simp [standing]
    · exact ⟨nofun, nofun, nofun, nofun, fun _ => inRange, nofun⟩
  | hasBoth =>
    rw [standing] at moved
    obtain ⟨graph', pushed, eq⟩ := Option.map_eq_some_iff.mp moved
    obtain ⟨rfl, rfl⟩ := Prod.mk.inj eq
    obtain ⟨vec, held, rfl⟩ := Option.map_eq_some_iff.mp pushed
    exact fits.append (fun j same => apart j i same) standing held
  | returned ok =>
    rw [standing] at moved
    cases moved

/-- A thread that has not returned can go on. -/
theorem Race.Fits.progress (fits : w.Fits edge g) (i : ι) (running : ∀ ok, w.thread i ≠ .returned ok) :
    (w.step edge i).isSome := by
  cases standing : w.thread i with
  | returned ok => exact absurd standing (running ok)
  | hasBoth =>
    have source : (w.graph (edge i).fromNode).isSome :=
      (fits.present _).mpr (.inr ⟨i, by rw [standing]; exact .inl rfl⟩)
    simpa [Race.step, standing, EdgeThread.step, Graph.append] using source
  | _ => simp [Race.step, standing, EdgeThread.step]

/-- The threads determine the graph. -/
theorem Race.Fits.graph_eq (fits : w.Fits edge g) (fits' : w'.Fits edge g)
    (same : w.thread = w'.thread) : w.graph = w'.graph := by
  funext v
  by_cases source : ∃ i, (edge i).fromNode = v ∧ w.thread i = .returned true
  · obtain ⟨i, rfl, returned⟩ := source
    rw [(fits.threads i).appended returned, (fits'.threads i).appended (same ▸ returned)]
  · have present : (w.graph v).isSome ↔ (w'.graph v).isSome := by rw [fits.present, fits'.present, same]
    cases held : w.graph v with
    | none =>
      rw [held] at present
      cases held' : w'.graph v with
      | none => rfl
      | some vec => simp [held'] at present
    | some vec =>
      rw [held] at present
      obtain ⟨vec', held'⟩ := Option.isSome_iff_exists.mp (present.mp rfl)
      have plain := fits.plain v vec held fun i from_ returned => source ⟨i, from_, returned⟩
      have plain' := fits'.plain v vec' held' fun i from_ returned =>
        source ⟨i, from_, same ▸ returned⟩
      rw [held', plain, plain']

variable {ok : Bool}

/-- How threads that have returned answered. -/
theorem Race.Fits.returned_eq (fits : w.Fits edge g) (returned : w.thread i = .returned ok) :
    ok = decide (edge i).InRange := by
  cases ok with
  | true => exact (decide_eq_true ((fits.threads i).accepted (by rw [returned]; trivial))).symm
  | false => exact (decide_eq_false ((fits.threads i).refused returned)).symm

variable {s : Race ι} {h : Graph}

/-- One more step of a run. -/
theorem Race.go {t' : EdgeThread} (path : Path (Race.step edge) anyStep s w)
    (standing : w.thread i = t) (moved : t.step (edge i) w.graph = some (h, t')) :
    Path (Race.step edge) anyStep s ⟨h, Function.update w.thread i t'⟩ := by
  refine path.tail (l := i) trivial ?_
  rw [Race.step, standing, moved]
  rfl

/-- A request that runs undisturbed. -/
theorem Race.alone (path : Path (Race.step edge) anyStep s w) (entered : w.thread i = .entered)
    (added : w.graph.addEdge (edge i) = some (h, ok)) :
    Path (Race.step edge) anyStep s ⟨h, Function.update w.thread i (.returned ok)⟩ := by
  rw [Graph.addEdge] at added
  by_cases inRange : (edge i).InRange
  · rw [if_pos inRange] at added
    obtain ⟨h', appended, eq⟩ := Option.map_eq_some_iff.mp added
    obtain ⟨rfl, rfl⟩ := Prod.mk.inj eq
    have read := Race.go path entered (by rw [EdgeThread.step, if_pos inRange])
    have hasSource := Race.go read (Function.update_self ..) rfl
    have readDest := Race.go hasSource (Function.update_self ..) rfl
    have hasBoth := Race.go readDest (Function.update_self ..) rfl
    have returned := Race.go hasBoth (Function.update_self ..) (by rw [EdgeThread.step, appended]; rfl)
    simpa only [Function.update_idem] using returned
  · rw [if_neg inRange] at added
    obtain ⟨rfl, rfl⟩ := Prod.mk.inj (Option.some.inj added)
    exact Race.go path entered (by rw [EdgeThread.step, if_neg inRange])

end Race

/-- `add_edge` never follows a null pointer when it runs alone. -/
theorem Graph.addEdge_isSome (g : Graph) (e : Edge) :
    ∃ g', g.addEdge e = some (g', decide e.InRange) := by
  rw [addEdge]
  by_cases inRange : e.InRange
  · rw [if_pos inRange]
    have created : (createIf (g e.fromNode).isNone g e.fromNode e.fromNode).isSome := by
      rw [isSome_createIf]
      cases g e.fromNode <;> simp
    have both := (isSome_createIf (createIf (g e.fromNode).isNone g e.fromNode e.toNode).isNone
      (createIf (g e.fromNode).isNone g e.fromNode) e.toNode e.fromNode).mpr (.inl created)
    obtain ⟨vec, held⟩ := Option.isSome_iff_exists.mp both
    simp only [append, held, Option.map_some, decide_eq_true inRange]
    exact ⟨_, rfl⟩
  · rw [if_neg inRange, decide_eq_false inRange]
    exact ⟨g, rfl⟩

/-- The graph after two requests, one after the other. -/
def Graph.addBoth (g : Graph) (e₁ e₂ : Edge) : Option Graph := do
  let (g, _) ← g.addEdge e₁
  let (g, _) ← g.addEdge e₂
  some g

variable {g : Graph}

theorem Graph.isSome_of_addEdge {g' : Graph} {e : Edge} {ok : Bool} {v : Nat}
    (added : g.addEdge e = some (g', ok)) (was : (g v).isSome) : (g' v).isSome := by
  rw [addEdge] at added
  split at added
  · obtain ⟨h, appended, eq⟩ := Option.map_eq_some_iff.mp added
    obtain ⟨rfl, -⟩ := Prod.mk.inj eq
    obtain ⟨vec, -, rfl⟩ := Option.map_eq_some_iff.mp appended
    by_cases same : v = e.fromNode
    · simp [same]
    · rw [Function.update_of_ne same, isSome_createIf, isSome_createIf]
      exact .inl (.inl was)
  · obtain ⟨rfl, -⟩ := Prod.mk.inj (Option.some.inj added)
    exact was

/-- **A lost edge.**  A thread sees the other's source slot empty, the other runs, and the first puts a
fresh vector over what the other has created. -/
theorem Race.lost_edge {ι : Type} [DecidableEq ι] {edge : ι → Edge} {i j : ι} (different : i ≠ j)
    (apart : (edge i).fromNode ≠ (edge j).fromNode) (inRange : (edge i).InRange)
    (target : (edge i).toNode = (edge j).fromNode) (empty : g (edge j).fromNode = none) :
    ∃ w, Path (Race.step edge) anyStep (Race.start g) w ∧ w.graph (edge j).fromNode = some [] ∧
      ∀ k, k = i ∨ k = j → ∃ ok, w.thread k = .returned ok := by
  let h := g.createIf (g (edge i).fromNode).isNone (edge i).fromNode
  have unseen : h (edge i).toNode = none := by
    rw [target, ← empty]
    exact Graph.createIf_of_not (fun made => apart made.2.symm) g
  have source : (h (edge i).fromNode).isSome := by
    rw [Graph.isSome_createIf]
    cases g (edge i).fromNode <;> simp
  obtain ⟨h', added⟩ := h.addEdge_isSome (edge j)
  obtain ⟨vec, held⟩ := Option.isSome_iff_exists.mp (Graph.isSome_of_addEdge added source)
  have start : Path (Race.step edge) anyStep (Race.start g) (Race.start g) := .refl
  have read := Race.go (i := i) (t := .entered) start rfl (by rw [EdgeThread.step, if_pos inRange])
  have hasSource := Race.go read (Function.update_self ..) rfl
  have readDest := Race.go hasSource (Function.update_self ..)
    (show EdgeThread.step _ h .hasSource = some (h, .readDest true) by rw [EdgeThread.step, unseen]; rfl)
  have other := Race.alone (i := j) readDest (by simp [Function.update_of_ne different.symm, Race.start])
    added
  have hasBoth := Race.go (i := i) (t := .readDest true) other
    (by simp [Function.update_of_ne different]) rfl
  have returned := Race.go hasBoth (Function.update_self ..)
    (show EdgeThread.step _ _ .hasBoth = some (Function.update (h'.create (edge i).toNode) (edge i).fromNode
      (some (vec ++ [(edge i).toNode])), .returned true) by
        have there : h'.create (edge i).toNode (edge i).fromNode = some vec := by
          rw [Graph.create, Function.update_of_ne (target ▸ apart), held]
        simp [EdgeThread.step, Graph.append, Graph.createIf, there])
  refine ⟨_, returned, ?_, ?_⟩
  · refine (Function.update_of_ne apart.symm _ _).trans ?_
    rw [Graph.create, target, Function.update_self]
  · rintro k (rfl | rfl)
    · exact ⟨_, Function.update_self ..⟩
    · exact ⟨decide (edge k).InRange, by simp [Function.update_of_ne different.symm]⟩

/-- The requests of the two threads. -/
def pair (e₁ e₂ : Edge) (second : Bool) : Edge := if second then e₂ else e₁

/-- One request creates the slot that is the source of the other. -/
def Overlap (g : Graph) (e₁ e₂ : Edge) : Prop :=
  e₁.InRange ∧ e₂.InRange ∧
    (e₁.toNode = e₂.fromNode ∧ g e₂.fromNode = none ∨ e₂.toNode = e₁.fromNode ∧ g e₁.fromNode = none)

theorem collides_pair_iff (g : Graph) (e₁ e₂ : Edge) : Collides (pair e₁ e₂) g ↔ Overlap g e₁ e₂ := by
  constructor
  · rintro ⟨i, j, different, accepted, accepted', target, empty⟩
    cases i <;> cases j
    · exact absurd rfl different
    · exact ⟨accepted, accepted', .inl ⟨target, empty⟩⟩
    · exact ⟨accepted', accepted, .inr ⟨target, empty⟩⟩
    · exact absurd rfl different
  · rintro ⟨accepted, accepted', ⟨target, empty⟩ | ⟨target, empty⟩⟩
    · exact ⟨false, true, nofun, accepted, accepted', target, empty⟩
    · exact ⟨true, false, nofun, accepted', accepted, target, empty⟩

/-- One request after the other is a run of the two threads. -/
theorem Race.addBoth_run (g : Graph) (e₁ e₂ : Edge) (i : Bool) :
    ∃ g', g.addBoth (pair e₁ e₂ i) (pair e₁ e₂ !i) = some g' ∧
      Path (Race.step (pair e₁ e₂)) anyStep (Race.start g)
        ⟨g', fun j => .returned (decide (pair e₁ e₂ j).InRange)⟩ := by
  obtain ⟨g₁, first⟩ := g.addEdge_isSome (pair e₁ e₂ i)
  obtain ⟨g₂, second⟩ := g₁.addEdge_isSome (pair e₁ e₂ !i)
  refine ⟨g₂, by simp [Graph.addBoth, first, second], ?_⟩
  have start : Path (Race.step (pair e₁ e₂)) anyStep (Race.start g) (Race.start g) := .refl
  have ran := Race.alone start rfl first
  have ran' := Race.alone (i := !i) ran (by cases i <;> rfl) second
  have threads : (fun j => EdgeThread.returned (decide (pair e₁ e₂ j).InRange)) =
      Function.update (Function.update (fun _ => .entered) i (.returned (decide (pair e₁ e₂ i).InRange)))
        (!i) (.returned (decide (pair e₁ e₂ !i).InRange)) := by
    funext j
    cases i <;> cases j <;> rfl
  rw [threads]
  exact ran'

/-- The interleavings of the two requests all run to their ends, and end as the requests do one after the
other: with both edges there. -/
def EdgesSurvive (g : Graph) (e₁ e₂ : Edge) : Prop :=
  ∀ w, Path (Race.step (pair e₁ e₂)) anyStep (Race.start g) w →
    (∀ i, (∀ ok, w.thread i ≠ .returned ok) → (w.step (pair e₁ e₂) i).isSome) ∧
    ((∀ i, ∃ ok, w.thread i = .returned ok) →
      g.addBoth e₁ e₂ = some w.graph ∧ g.addBoth e₂ e₁ = some w.graph ∧
      ∀ i, (pair e₁ e₂ i).InRange →
        (pair e₁ e₂ i).toNode ∈ (w.graph (pair e₁ e₂ i).fromNode).getD [])

/-- **No lost edge.**  For requests with different sources, exactly when neither creates the slot that is
the other's source. -/
theorem edges_survive_iff (g : Graph) (e₁ e₂ : Edge) (apart : e₁.fromNode ≠ e₂.fromNode) :
    EdgesSurvive g e₁ e₂ ↔ ¬ Overlap g e₁ e₂ := by
  have injective : ∀ i j, (pair e₁ e₂ i).fromNode = (pair e₁ e₂ j).fromNode → i = j := by
    intro i j same
    cases i <;> cases j
    · rfl
    · exact absurd same apart
    · exact absurd same.symm apart
    · rfl
  constructor
  · intro survive overlap
    obtain ⟨i, j, different, accepted, accepted', target, empty⟩ := (collides_pair_iff g e₁ e₂).mpr overlap
    obtain ⟨w, run, lost, returned⟩ := Race.lost_edge different
      (fun same => different (injective i j same)) accepted target empty
    have finished : ∀ k, ∃ ok, w.thread k = .returned ok := by
      intro k
      refine returned k ?_
      cases i <;> cases j <;> cases k <;> simp at different ⊢
    have there := ((survive w run).2 finished).2.2 j accepted'
    simp [lost] at there
  · intro disjoint w run
    have free : ¬ Collides (pair e₁ e₂) g := fun collides => disjoint ((collides_pair_iff g e₁ e₂).mp collides)
    have keeps : ∀ {v}, Path (Race.step (pair e₁ e₂)) anyStep (Race.start g) v →
        v.Fits (pair e₁ e₂) g :=
      fun run => run.keeps Race.fits_start fun _ _ _ fits _ taken => fits.step injective free taken
    have fits := keeps run
    refine ⟨fun i running => fits.progress i running, fun finished => ?_⟩
    have threads : w.thread = fun j => .returned (decide (pair e₁ e₂ j).InRange) := by
      funext j
      obtain ⟨ok, returned⟩ := finished j
      rw [returned, fits.returned_eq returned]
    have serial : ∀ i, g.addBoth (pair e₁ e₂ i) (pair e₁ e₂ !i) = some w.graph := by
      intro i
      obtain ⟨g', added, ran⟩ := Race.addBoth_run g e₁ e₂ i
      rw [added, fits.graph_eq (keeps ran) threads]
    refine ⟨serial false, serial true, fun i inRange => ?_⟩
    have returned : w.thread i = .returned true :=
      (congrFun threads i).trans (by rw [decide_eq_true inRange])
    rw [(fits.threads i).appended returned]
    simp

/-- Edges from 1 to 2 and from 2 to 3. -/
theorem edges_survive_iff_path : EdgesSurvive (fun v => if v = 2 then some [] else none) ⟨1, 2⟩ ⟨2, 3⟩ :=
  (edges_survive_iff _ _ _ (by decide)).mpr (by simp [Overlap])

/-- The same on the empty graph: the first thread sees the slot of 2 empty, the second adds its edge. -/
theorem edges_survive_fails : ¬ EdgesSurvive (fun _ => none) ⟨1, 2⟩ ⟨2, 3⟩ := by
  intro survive
  have ran : ∃ w ∈ exec (Race.step (pair ⟨1, 2⟩ ⟨2, 3⟩)) anyStep (Race.start fun _ => none)
      [false, false, false, true, true, true, true, true, false, false],
      (w.thread false = .returned true ∧ w.thread true = .returned true) ∧
          w.graph 2 = some [] := by decide +kernel
  obtain ⟨w, run, ⟨first, second⟩, lost⟩ := Path.exists_of_exec ran
  have finished : ∀ i, ∃ ok, w.thread i = .returned ok := by
    intro i
    cases i
    · exact ⟨true, first⟩
    · exact ⟨true, second⟩
  have there := ((survive w run).2 finished).2.2 true (by decide)
  simp [pair, lost] at there

end Cyclone.Pmemds
