/-
# Pmemds.Servers — the rules by which requests commute

Each of the three servers passes its requests to `PMLib::exec`, with a thread of its choice, and tells the
scheduler which pairs of requests commute.  The rules look at the operations and the keys alone, so a pair
may be for any two structures, or for one of any type.

* `commute_sound`: a pair that a server lets through ends in the same library in either order, with the
  same responses.
-/
import Cyclone.Pmemds.Lib
import Cyclone.Theory.Commuting

namespace Cyclone.Pmemds

open Cyclone.Theory

set_option autoImplicit false

/-! ## The servers -/

/-- A server: the thread its callback passes on, and its `commute_callback`. -/
structure Server where
  threadId : PmRpc → Nat
  commuteCallback : PmRpc → PmRpc → Bool

/-- `callback`. -/
def Server.callback (server : Server) (undoLog : Bool) (files : Files) (req : PmRpc) (lib : PMLib) :
    Option (PMLib × Reply) :=
  lib.exec undoLog files (server.threadId req) req

def PmRpc.op (r : PmRpc) : Option OpName := OpName.ofCode (opId r.word)

/-- `hashmap_server.cpp`. -/
def hashmapServer : Server where
  threadId _ := 0
  commuteCallback op1 op2 :=
    if (op1.op = some .put ∨ op1.op = some .get) ∧ (op2.op = some .put ∨ op2.op = some .get) then
      op1.key ≠ op2.key
    else false

/-- `executor_threads`, in the build where requests commute. -/
def executorThreads : Nat := 4

/-- The operations that `pqueue_server.cpp` finds a partition for. -/
def updates (r : PmRpc) : Bool :=
  r.op = some .put ∨ r.op = some .insert ∨ r.op = some .increasePrio ∨ r.op = some .decreasePrio

/-- `partition`: `INT_MAX` for an operation that has none. -/
def partition (r : PmRpc) : Nat := if updates r then r.key.toNat % executorThreads else 2 ^ 31 - 1

/-- `pqueue_server.cpp`.  The thread is a `uint8_t`. -/
def pqueueServer : Server where
  threadId r := partition r % 2 ^ 8
  commuteCallback op1 op2 :=
    if updates op1 ∧ updates op2 ∧ partition op1 ≠ partition op2 then true
    else decide (op1.op = some .getTopk ∧ op2.op = some .getTopk)

/-- `adjvector_server.cpp`. -/
def adjvectorServer : Server where
  threadId _ := 0
  commuteCallback op1 op2 :=
    if op1.op = some .vertexOutdegree ∧ op2.op = some .vertexOutdegree then true
    else if (op1.op = some .vertexOutdegree ∨ op1.op = some .addEdge) ∧
        (op2.op = some .vertexOutdegree ∨ op2.op = some .addEdge) then
      op1.key ≠ op2.key
    else false

/-! ## Tables -/

/-- What `get` and `put` do to the entry of their key. -/
def Table.entry (op : Option OpName) (req : PmRpc) (value : Option (List Byte)) :
    Option (Option (List Byte) × PmRpc) :=
  match op with
  | some .get => some (value, foundOr value)
  | some .put => (stringOf req).map fun value => (some value, answer .ok)
  | _ => some (value, answer .invalidOp)

variable {κ : Type}

theorem Table.exec_eq [DecidableEq κ] (op : Option OpName) (key : κ) (req : PmRpc) (m : Table κ) :
    m.exec op key req = onEntry key (Table.entry op req) m := by
  unfold Table.exec Table.entry onEntry
  split
  · simp
  · rw [Option.map_map]
    rfl
  · simp

theorem Table.exec_commutes [DecidableEq κ] {key₁ key₂ : κ} (apart : key₁ ≠ key₂)
    (op₁ op₂ : Option OpName) (r₁ r₂ : PmRpc) (m : Table κ) :
    CommutesAt (Table.exec op₁ key₁ r₁) (Table.exec op₂ key₂ r₂) m := by
  have entries : CommutesAt (onEntry key₁ (Table.entry op₁ r₁)) (onEntry key₂ (Table.entry op₂ r₂)) m :=
    commutesAt_entries apart
  rwa [← show Table.exec op₁ key₁ r₁ = _ from funext (Table.exec_eq op₁ key₁ r₁),
    ← show Table.exec op₂ key₂ r₂ = _ from funext (Table.exec_eq op₂ key₂ r₂)] at entries

/-- Numbers with the same decimal digits are the same: the keys of the tree. -/
theorem repr_injective {a b : Nat} (same : a.repr = b.repr) : a = b := by
  rw [Nat.repr_eq_ofList_toDigits, Nat.repr_eq_ofList_toDigits] at same
  have digits := String.ofList_injective same
  rw [← Nat.ofDigitChars_ten_toDigits (n := a), digits, Nat.ofDigitChars_ten_toDigits]

/-! ## The graph -/

/-- The graph after an edge that is in range. -/
def Graph.added (g : Graph) (e : Edge) : Graph := fun v =>
  if v = e.fromNode then some ((g v).getD [] ++ [e.toNode]) else if v = e.toNode then some ((g v).getD []) else g v

theorem Graph.createIf_isNone (g : Graph) (node : Nat) :
    createIf (g node).isNone g node = Function.update g node (some ((g node).getD [])) := by
  cases there : g node with
  | none => rfl
  | some vec =>
    rw [Option.getD_some, ← there, Function.update_eq_self, there]
    rfl

theorem Graph.addEdge_eq (g : Graph) (e : Edge) :
    g.addEdge e = some (if e.InRange then g.added e else g, decide e.InRange) := by
  rw [addEdge]
  by_cases inRange : e.InRange
  · rw [if_pos inRange, if_pos inRange, decide_eq_true inRange]
    dsimp only
    rw [createIf_isNone g, createIf_isNone]
    have source : Function.update (Function.update g e.fromNode (some ((g e.fromNode).getD []))) e.toNode
        (some ((Function.update g e.fromNode (some ((g e.fromNode).getD [])) e.toNode).getD [])) e.fromNode =
          some ((g e.fromNode).getD []) := by
      by_cases loop : e.fromNode = e.toNode
      · simp [← loop]
      · simp [loop]
    rw [append, source, Option.map_some, Option.map_some]
    congr 2
    funext v
    rw [added]
    by_cases first : v = e.fromNode
    · simp [first]
    · by_cases second : v = e.toNode
      · subst second
        simp [first]
      · simp [first, second]
  · rw [if_neg inRange, if_neg inRange, decide_eq_false inRange]

theorem Graph.added_comm (g : Graph) {e₁ e₂ : Edge} (apart : e₁.fromNode ≠ e₂.fromNode) :
    (g.added e₁).added e₂ = (g.added e₂).added e₁ := by
  funext v
  obtain ⟨from₁, to₁⟩ := e₁
  obtain ⟨from₂, to₂⟩ := e₂
  simp only [added]
  grind

/-- An edge adds to no other vertex's outdegree. -/
theorem Graph.vertexOutdegree_added (g : Graph) {e : Edge} {node : Nat} (other : node ≠ e.fromNode) :
    (g.added e).vertexOutdegree node = g.vertexOutdegree node := by
  rw [vertexOutdegree, vertexOutdegree, added, if_neg other]
  split
  · rw [Option.getD_some]
  · rfl

theorem ofGraph_cases {op : Option OpName} (mine : ofGraph op = true) :
    op = some .addEdge ∨ op = some .vertexOutdegree := by
  simpa [ofGraph] using mine

theorem Graph.exec_addEdge (r : PmRpc) (g : Graph) : Graph.exec (some .addEdge) r g =
    some (if Edge.InRange ⟨r.key.toNat, r.key2⟩ then g.added ⟨r.key.toNat, r.key2⟩ else g,
      answer (if Edge.InRange ⟨r.key.toNat, r.key2⟩ then .ok else .failed)) := by
  rw [Graph.exec, addEdge_eq, Option.map_some]
  simp only [decide_eq_true_eq]

theorem Graph.exec_vertexOutdegree_reads {req : PmRpc} {g : Graph} {r : Graph × PmRpc}
    (ran : Graph.exec (some .vertexOutdegree) req g = some r) : r.1 = g := by
  rw [Graph.exec] at ran
  split at ran
  · cases ran
  · rw [← Option.some.inj ran]

variable {r₁ r₂ : PmRpc}

theorem Graph.addEdge_commutes (apart : r₁.key.toNat ≠ r₂.key.toNat) (g : Graph) :
    CommutesAt (Graph.exec (some .addEdge) r₁) (Graph.exec (some .addEdge) r₂) g := by
  simp only [CommutesAt, inTurn, exec_addEdge, Option.bind_some, Option.map_some]
  congr 2
  split_ifs
  · exact g.added_comm apart
  · rfl
  · rfl
  · rfl

theorem Graph.addEdge_vertexOutdegree_commutes (apart : r₁.key.toNat ≠ r₂.key.toNat) (g : Graph) :
    CommutesAt (Graph.exec (some .addEdge) r₁) (Graph.exec (some .vertexOutdegree) r₂) g := by
  have degree : Graph.vertexOutdegree (if Edge.InRange ⟨r₁.key.toNat, r₁.key2⟩ then g.added ⟨r₁.key.toNat, r₁.key2⟩
      else g) r₂.key.toNat = g.vertexOutdegree r₂.key.toNat := by
    split
    · exact g.vertexOutdegree_added apart.symm
    · rfl
  have read : ∀ g : Graph, Graph.exec (some .vertexOutdegree) r₂ g = if r₂.key.toNat > maxNodes - 1 then none
      else some (g, respond .ok (.ofNat 64 (g.vertexOutdegree r₂.key.toNat)) zeros) := fun _ => rfl
  simp only [CommutesAt, inTurn, exec_addEdge, Option.bind_some, read, degree]
  by_cases far : r₂.key.toNat > maxNodes - 1
  · simp [far]
  · simp [far]

theorem Graph.exec_commutes (apart : r₁.key ≠ r₂.key) {op₁ op₂ : Option OpName}
    (mine₁ : ofGraph op₁ = true) (mine₂ : ofGraph op₂ = true) (g : Graph) :
    CommutesAt (Graph.exec op₁ r₁) (Graph.exec op₂ r₂) g := by
  have keys : r₁.key.toNat ≠ r₂.key.toNat := fun same => apart (BitVec.eq_of_toNat_eq same)
  rcases ofGraph_cases mine₁ with rfl | rfl
  · rcases ofGraph_cases mine₂ with rfl | rfl
    · exact addEdge_commutes keys g
    · exact addEdge_vertexOutdegree_commutes keys g
  · rcases ofGraph_cases mine₂ with rfl | rfl
    · exact (addEdge_vertexOutdegree_commutes keys.symm g).symm
    · exact commutesAt_of_reads (fun _ => exec_vertexOutdegree_reads) fun _ => exec_vertexOutdegree_reads

/-! ## Engines -/

section Parts

variable {P : Type} {f g : P → Option (P × PmRpc)} {mine₁ mine₂ : Bool}

/-- Parts of engines: what is not valid changes nothing. -/
theorem onPart_commutes {part : Option P} (both : mine₁ = true → mine₂ = true → ∀ p, CommutesAt f g p) :
    CommutesAt (onPart mine₁ f) (onPart mine₂ g) part := by
  cases mine₁ with
  | false => exact commutesAt_of_const fun _ => rfl
  | true =>
    cases mine₂ with
    | false => exact (commutesAt_of_const fun _ => rfl).symm
    | true =>
      cases part with
      | none => exact commutesAt_of_reads nofun nofun
      | some p => exact CommutesAt.embed some (fun _ => rfl) (fun _ => rfl) (both rfl rfl p)

theorem onShard_commutes {thread₁ thread₂ : Nat} {shards : Nat → Option P}
    (both : thread₁ = thread₂ → mine₁ = true → mine₂ = true → ∀ p, CommutesAt f g p) :
    CommutesAt (onShard thread₁ mine₁ f) (onShard thread₂ mine₂ g) shards :=
  CommutesAt.entries (f := onPart mine₁ f) (g := onPart mine₂ g) fun same => onPart_commutes (both same)

end Parts

theorem Graph.listExec_commutes (apart : r₁.key ≠ r₂.key) {op₁ op₂ : Option OpName}
    (listArray : Option Graph) :
    CommutesAt (Graph.listExec op₁ r₁) (Graph.listExec op₂ r₂) listArray := by
  have list : ∀ op r, Graph.atOnce op r = none →
      Graph.listExec op r = onPart (ofGraph op) (Graph.exec op r) := by
    intro op r asked
    funext listArray
    rw [Graph.listExec, asked]
  cases first : Graph.atOnce op₁ r₁ with
  | some resp => exact commutesAt_of_const fun _ => by rw [Graph.listExec, first]
  | none =>
    cases second : Graph.atOnce op₂ r₂ with
    | some resp => exact (commutesAt_of_const fun _ => by rw [Graph.listExec, second]).symm
    | none =>
      rw [list op₁ r₁ first, list op₂ r₂ second]
      exact onPart_commutes fun mine₁ mine₂ => Graph.exec_commutes apart mine₁ mine₂

section Engines

variable {undoLog : Bool} {thread₁ thread₂ : Nat} {op₁ op₂ : Option OpName} {r₁ r₂ : PmRpc}

/-- Requests for two keys, when they do not both change one queue. -/
theorem Engine.exec_commutes (apart : r₁.key ≠ r₂.key)
    (queues : thread₁ = thread₂ → ofQueue op₁ = true → ofQueue op₂ = true → False) (e : Engine) :
    CommutesAt (Engine.exec undoLog thread₁ op₁ r₁) (Engine.exec undoLog thread₂ op₂ r₂) e := by
  cases e with
  | btree m =>
    have keys : r₁.key.toNat.repr ≠ r₂.key.toNat.repr := fun same =>
      apart (BitVec.eq_of_toNat_eq (repr_injective same))
    exact (Table.exec_commutes keys op₁ op₂ r₁ r₂ m).embed Engine.btree (fun _ => rfl) fun _ => rfl
  | hashMap m =>
    exact (Table.exec_commutes apart op₁ op₂ r₁ r₂ m).embed Engine.hashMap (fun _ => rfl) fun _ => rfl
  | shardedHashMap container =>
    have shards : CommutesAt
        (onShard thread₁ (ofTable op₁) (Table.exec op₁ r₁.key r₁))
        (onShard thread₂ (ofTable op₂) (Table.exec op₂ r₂.key r₂)) container :=
      onShard_commutes fun _ _ _ m => Table.exec_commutes apart op₁ op₂ r₁ r₂ m
    exact shards.embed Engine.shardedHashMap (fun _ => rfl) fun _ => rfl
  | shardedPriorityQueue k myPq =>
    have shards : CommutesAt (onShard thread₁ (ofQueue op₁) (Shard.exec undoLog k op₁ r₁))
        (onShard thread₂ (ofQueue op₂) (Shard.exec undoLog k op₂ r₂)) myPq :=
      onShard_commutes fun same mine₁ mine₂ => (queues same mine₁ mine₂).elim
    exact shards.embed (Engine.shardedPriorityQueue k) (fun _ => rfl) fun _ => rfl
  | adjVector listArray =>
    exact (Graph.listExec_commutes apart listArray).embed Engine.adjVector (fun _ => rfl) fun _ => rfl

variable {threadId : Nat}

/-- An operation that is not valid changes no shard. -/
theorem onShard_reads {P : Type} {f : P → Option (P × PmRpc)} {shards : Nat → Option P} :
    onShard threadId false f shards = some (shards, answer .invalidOp) := by
  rw [onShard, onPart, if_neg Bool.false_ne_true, Option.map_some, Function.update_eq_self]

/-- Asking for an outdegree changes no engine. -/
theorem Engine.exec_vertexOutdegree_reads {req : PmRpc} {e : Engine} {r : Engine × PmRpc}
    (ran : Engine.exec undoLog threadId (some .vertexOutdegree) req e = some r) : r.1 = e := by
  cases e with
  | btree m => rw [← Option.some.inj ran]
  | hashMap m => rw [← Option.some.inj ran]
  | shardedHashMap container =>
    rw [Engine.exec, show ofTable (some .vertexOutdegree) = false from rfl, onShard_reads] at ran
    rw [← Option.some.inj ran]
  | shardedPriorityQueue k myPq =>
    rw [Engine.exec, show ofQueue (some .vertexOutdegree) = false from rfl, onShard_reads] at ran
    rw [← Option.some.inj ran]
  | adjVector listArray =>
    rw [Engine.exec, Graph.listExec, show Graph.atOnce (some .vertexOutdegree) req = none from rfl, onPart,
      if_pos (show ofGraph (some .vertexOutdegree) = true from rfl)] at ran
    obtain ⟨q, handled, rfl⟩ := Option.map_eq_some_iff.mp ran
    obtain ⟨g, there, handled⟩ := Option.bind_eq_some_iff.mp handled
    obtain ⟨q', read, rfl⟩ := Option.map_eq_some_iff.mp handled
    rw [there, Graph.exec_vertexOutdegree_reads read]

end Engines

/-! ## The library -/

section Library

variable {undoLog : Bool} {files : Files} {thread₁ thread₂ : Nat} {r₁ r₂ : PmRpc} {lib : PMLib}

/-- The operations of the rules that go to an engine. -/
def PmRpc.ofEngine (r : PmRpc) : Prop :=
  r.op ∈ [some .get, some .put, some .insert, some .increasePrio, some .decreasePrio, some .addEdge,
    some .vertexOutdegree]

theorem PMLib.exec_ofEngine {r : PmRpc} (ofEngine : r.ofEngine) (undoLog : Bool) (files : Files) (threadId : Nat)
    (lib : PMLib) : lib.exec undoLog files threadId r = lib.engineMap.bind fun map =>
      (onEntry (dsId r.word) (onSlot (Engine.exec undoLog threadId r.op r)) map).map fun q =>
        ({ lib with engineMap := some q.1 }, q.2) := by
  have default_ : lib.exec undoLog files threadId r = lib.engineMap.bind fun map =>
      (onSlot (Engine.exec undoLog threadId r.op r) (map (dsId r.word))).map fun q =>
        ({ lib with engineMap := some (Function.update map (dsId r.word) q.1) }, q.2) := by
    have op : OpName.ofCode (opId r.word) = r.op := rfl
    rw [PMLib.exec, op]
    simp only [PmRpc.ofEngine, List.mem_cons, List.not_mem_nil, or_false] at ofEngine
    rcases ofEngine with op | op | op | op | op | op | op <;> rw [op]
  rw [default_]
  congr 1
  funext map
  rw [onEntry, Option.map_map]
  rfl

theorem onSlot_commutes {f g : Engine → Option (Engine × PmRpc)} (commutes : ∀ e, CommutesAt f g e)
    (slot : Option Slot) : CommutesAt (PMLib.onSlot f) (PMLib.onSlot g) slot := by
  cases slot with
  | none => exact commutesAt_of_reads nofun nofun
  | some slot =>
    have wrapped := (commutes slot.engine).answers Reply.rpc Reply.rpc
    have place : ∀ (f : Engine → Option (Engine × PmRpc)) (e : Engine),
        PMLib.onSlot f (some (Slot.mk slot.serial e)) =
          ((f e).map fun r => (r.1, Reply.rpc r.2)).map fun r => (some (Slot.mk slot.serial r.1), r.2) := by
      intro f e
      rw [PMLib.onSlot, Option.map_map]
      rfl
    exact wrapped.embed (fun e => some (Slot.mk slot.serial e)) (place f) (place g)

/-- Requests that commute on every engine commute on the library. -/
theorem PMLib.exec_commutes (first : r₁.ofEngine) (second : r₂.ofEngine)
    (commutes : ∀ e, CommutesAt (Engine.exec undoLog thread₁ r₁.op r₁) (Engine.exec undoLog thread₂ r₂.op r₂) e) :
    CommutesAt (fun lib : PMLib => lib.exec undoLog files thread₁ r₁)
      (fun lib : PMLib => lib.exec undoLog files thread₂ r₂) lib := by
  simp only [PMLib.exec_ofEngine first, PMLib.exec_ofEngine second]
  cases there : lib.engineMap with
  | none =>
    refine commutesAt_of_reads (fun r ran => ?_) fun r ran => ?_
    · rw [there] at ran
      cases ran
    · rw [there] at ran
      cases ran
  | some map =>
    have entries : CommutesAt (onEntry (dsId r₁.word) (onSlot (Engine.exec undoLog thread₁ r₁.op r₁)))
        (onEntry (dsId r₂.word) (onSlot (Engine.exec undoLog thread₂ r₂.op r₂))) map :=
      CommutesAt.entries fun _ => onSlot_commutes commutes _
    have embedded := entries.embed (fun map => { lib with engineMap := some map })
      (f := fun lib => lib.engineMap.bind fun map =>
        (onEntry (dsId r₁.word) (onSlot (Engine.exec undoLog thread₁ r₁.op r₁)) map).map fun q =>
          ({ lib with engineMap := some q.1 }, q.2))
      (g := fun lib => lib.engineMap.bind fun map =>
        (onEntry (dsId r₂.word) (onSlot (Engine.exec undoLog thread₂ r₂.op r₂)) map).map fun q =>
          ({ lib with engineMap := some q.1 }, q.2)) (fun _ => rfl) fun _ => rfl
    rwa [show ({ lib with engineMap := some map } : PMLib) = lib by rw [← there]] at embedded

end Library

/-! ## The rules -/

section Rules

variable {undoLog : Bool} {files : Files} {r₁ r₂ : PmRpc} {lib : PMLib}

/-- Requests of an engine for different keys, none of them of a sharded queue. -/
theorem apart_commutes (server : Server) (keys : r₁.key ≠ r₂.key)
    (first : r₁.ofEngine ∧ ofQueue r₁.op = false) (second : r₂.ofEngine) :
    CommutesAt (server.callback undoLog files r₁) (server.callback undoLog files r₂) lib := by
  refine PMLib.exec_commutes first.1 second (Engine.exec_commutes keys fun _ mine _ => ?_)
  rw [first.2] at mine
  cases mine

theorem hashmapServer_sound (commute : hashmapServer.commuteCallback r₁ r₂ = true) :
    CommutesAt (hashmapServer.callback undoLog files r₁) (hashmapServer.callback undoLog files r₂) lib := by
  simp only [hashmapServer] at commute
  split at commute
  · rename_i ops
    refine apart_commutes _ (of_decide_eq_true commute) ?_ ?_
    · rcases ops.1 with op | op <;> simp [PmRpc.ofEngine, ofQueue, op]
    · rcases ops.2 with op | op <;> simp [PmRpc.ofEngine, op]
  · cases commute

theorem updates_ofEngine {r : PmRpc} (updates : updates r = true) : r.ofEngine := by
  simp only [Pmemds.updates, decide_eq_true_eq] at updates
  rcases updates with op | op | op | op <;> simp [PmRpc.ofEngine, op]

theorem pqueueServer_sound (commute : pqueueServer.commuteCallback r₁ r₂ = true) :
    CommutesAt (pqueueServer.callback undoLog files r₁) (pqueueServer.callback undoLog files r₂) lib := by
  simp only [pqueueServer] at commute
  split at commute
  · rename_i parts
    obtain ⟨first, second, apart⟩ := parts
    have keys : r₁.key ≠ r₂.key := fun same => apart (by rw [partition, partition, if_pos first, if_pos second, same])
    have threads : pqueueServer.threadId r₁ ≠ pqueueServer.threadId r₂ := by
      simp only [partition, if_pos first, if_pos second, executorThreads] at apart
      simp only [pqueueServer, partition, if_pos first, if_pos second, executorThreads]
      omega
    exact PMLib.exec_commutes (updates_ofEngine first) (updates_ofEngine second)
      (Engine.exec_commutes keys fun same _ _ => threads same)
  · obtain ⟨first, second⟩ := of_decide_eq_true commute
    have reads : ∀ {r : PmRpc} {q : PMLib × Reply}, r.op = some .getTopk →
        pqueueServer.callback undoLog files r lib = some q → q.1 = lib := by
      intro r q op ran
      rw [Server.callback, PMLib.exec, show OpName.ofCode (opId r.word) = some .getTopk from op] at ran
      obtain ⟨reply, -, rfl⟩ := Option.map_eq_some_iff.mp ran
      rfl
    exact commutesAt_of_reads (fun _ => reads first) fun _ => reads second

theorem adjvectorServer_sound (commute : adjvectorServer.commuteCallback r₁ r₂ = true) :
    CommutesAt (adjvectorServer.callback undoLog files r₁) (adjvectorServer.callback undoLog files r₂) lib := by
  simp only [adjvectorServer] at commute
  split at commute
  · rename_i ops
    refine PMLib.exec_commutes (by simp [PmRpc.ofEngine, ops.1]) (by simp [PmRpc.ofEngine, ops.2]) fun e => ?_
    rw [ops.1, ops.2]
    exact commutesAt_of_reads (fun _ => Engine.exec_vertexOutdegree_reads) fun _ =>
      Engine.exec_vertexOutdegree_reads
  · split at commute
    · rename_i ops
      refine apart_commutes _ (of_decide_eq_true commute) ?_ ?_
      · rcases ops.1 with op | op <;> simp [PmRpc.ofEngine, ofQueue, op]
      · rcases ops.2 with op | op <;> simp [PmRpc.ofEngine, op]
    · cases commute

end Rules

/-- **The rules are sound.**  Whatever the library holds, two requests that one of the servers takes to
commute end in the same library and with the same response for each, whichever comes first. -/
theorem commute_sound {server : Server} (known : server ∈ [hashmapServer, pqueueServer, adjvectorServer])
    (undoLog : Bool) (files : Files) (lib : PMLib) (r₁ r₂ : PmRpc)
    (commute : server.commuteCallback r₁ r₂ = true) :
    inTurn (server.callback undoLog files r₁) (server.callback undoLog files r₂) lib =
      (inTurn (server.callback undoLog files r₂) (server.callback undoLog files r₁) lib).map fun r =>
        (r.1, r.2.2, r.2.1) := by
  simp only [List.mem_cons, List.not_mem_nil, or_false] at known
  rcases known with rfl | rfl | rfl
  · exact hashmapServer_sound commute
  · exact pqueueServer_sound commute
  · exact adjvectorServer_sound commute

/-- A library with a sharded queue for id 1. -/
def queueLib : PMLib :=
  ⟨4, some (Function.update (fun _ => none) 1 (some ⟨0, .shardedPriorityQueue 2 (shardsOf 4 (.live .empty))⟩)), 1⟩

/-- A request for that queue. -/
def vote (key priority : BitVec 64) : PmRpc := Client.request ⟨.shardedPriorityQueue, 1⟩ (.insert key priority)

theorem commute_sound_votes : pqueueServer.commuteCallback (vote 1 10) (vote 6 20) = true ∧
    ((inTurn (pqueueServer.callback true .empty (vote 1 10))
        (pqueueServer.callback true .empty (vote 6 20)) queueLib).map Prod.snd =
      some (.rpc (respond .ok 1 zeros), .rpc (respond .ok 6 zeros))) ∧
    inTurn (pqueueServer.callback true .empty (vote 1 10))
        (pqueueServer.callback true .empty (vote 6 20)) queueLib =
      (inTurn (pqueueServer.callback true .empty (vote 6 20))
        (pqueueServer.callback true .empty (vote 1 10)) queueLib).map fun r => (r.1, r.2.2, r.2.1) := by
  have allowed : pqueueServer.commuteCallback (vote 1 10) (vote 6 20) = true := by decide +kernel
  refine ⟨allowed, by decide +kernel, ?_⟩
  exact commute_sound (by simp) true .empty queueLib (vote 1 10) (vote 6 20) allowed

end Cyclone.Pmemds
