/-
# Pmemds.Lib — `PMLib` and its engines

`PMLib::exec` runs the requests on the library itself and hands every other request to the engine that
the map has for the id of its word.  An engine here is what it stores: strings by key for the hash maps
and the tree, the top-k queues, the lists of the graph.  The shards of an engine that were never
initialised are absent.

Nothing results where the code runs into undefined behaviour or ends the process: a map that was never
created, the end of the map dereferenced for an id it does not have, an iterator advanced after its
element was erased, a shard that is not there, an engine taken for one of another type, a string without
an end, an element of a queue that died with the process that made it.

Engines are numbered as they are made, so that one can be told from another in the same place.
-/
import Cyclone.Pmemds.AdjVector
import Cyclone.Pmemds.PriorityQueue
import Cyclone.Pmemds.Rpc

namespace Cyclone.Pmemds

open Cyclone.Theory

set_option autoImplicit false

/-! ## Engines -/

/-- Strings by key: a `concurrent_hash_map`, or the tree. -/
abbrev Table (κ : Type) := κ → Option (List Byte)

/-- A `persistent_priority_queue`.  The vectors of its pool hold pointers to elements that are not in the
pool, so that those of an earlier process lead nowhere; the positions of the keys are in the pool. -/
inductive Shard
  | live (queue : Queue)
  | stale (keymap : KeyMap)

/-- The elements of a shard, when they are there. -/
def Shard.queue : Shard → Option Queue
  | .live queue => some queue
  | .stale _ => none

/-- What a `PMEngine` stores: of the tree, what a search finds in it. -/
inductive Engine
  | btree (table : Table String)
  | hashMap (table : Table (BitVec 64))
  | shardedHashMap (container : Nat → Option (Table (BitVec 64)))
  | shardedPriorityQueue (k : Nat) (myPq : Nat → Option Shard)
  | adjVector (listArray : Option Graph)

/-- `get`: the response. -/
def foundOr : Option (List Byte) → PmRpc
  | none => answer .notFound
  | some value => respond .ok 0 (printed value)

/-- `std::string(req->value)`: it reads on to a zero, and nothing says what is behind the field. -/
def stringOf (req : PmRpc) : Option (List Byte) :=
  if 0 ∈ req.value.toList then some (cString req.value.toList) else none

/-- `get` and `put` of `HashMapEngine`, `ShardedHashMapEngine` and `BTreeEngine`. -/
def Table.exec {κ : Type} [DecidableEq κ] (op : Option OpName) (key : κ) (req : PmRpc) (m : Table κ) :
    Option (Table κ × PmRpc) :=
  match op with
  | some .get => some (m, foundOr (m key))
  | some .put => (stringOf req).map fun value => (Function.update m key (some value), answer .ok)
  | _ => some (m, answer .invalidOp)

/-- What `BTreeEngine` calls of the vendored `persistent::b_tree`: a search, an insertion that tells whether
the key is new, and the assignment through the iterator that the insertion returns. -/
structure PersistentBTree (τ : Type) where
  find : τ → String → Option (List Byte)
  insert : τ → String → List Byte → τ × Bool
  assign : τ → String → List Byte → τ

namespace PersistentBTree

variable {τ : Type} {tree : PersistentBTree τ}

/-- What is assumed of the tree. -/
structure Lawful (tree : PersistentBTree τ) : Prop where
  insert_new : ∀ {t key} value, tree.find t key = none → (tree.insert t key value).2 = true ∧
    tree.find (tree.insert t key value).1 = Function.update (tree.find t) key (some value)
  insert_old : ∀ {t key} value, (tree.find t key).isSome = true → tree.insert t key value = (t, false)
  find_assign : ∀ {t key} value, (tree.find t key).isSome = true →
    tree.find (tree.assign t key value) = Function.update (tree.find t) key (some value)

/-- The table is such a tree. -/
def table : PersistentBTree (Table String) where
  find := id
  insert m key value := if (m key).isSome then (m, false) else (Function.update m key (some value), true)
  assign m key value := Function.update m key (some value)

theorem lawful_table : table.Lawful where
  insert_new value absent := by simp_all [table]
  insert_old value present := if_pos present
  find_assign _ _ := rfl

/-- `BTreeEngine::put`. -/
def put (tree : PersistentBTree τ) (key : String) (value : List Byte) (t : τ) : τ :=
  let res := tree.insert t key value
  if res.2 then res.1 else tree.assign res.1 key value

/-- `BTreeEngine::exec`. -/
def exec (tree : PersistentBTree τ) (op : Option OpName) (key : String) (req : PmRpc) (t : τ) :
    Option (τ × PmRpc) :=
  match op with
  | some .get => some (t, foundOr (tree.find t key))
  | some .put => (stringOf req).map fun value => (tree.put key value t, answer .ok)
  | _ => some (t, answer .invalidOp)

theorem Lawful.find_put (lawful : tree.Lawful) (key : String) (value : List Byte) (t : τ) :
    tree.find (tree.put key value t) = Function.update (tree.find t) key (some value) := by
  rw [put]
  cases there : tree.find t key with
  | none =>
    obtain ⟨new, found⟩ := lawful.insert_new value there
    rw [if_pos new, found]
  | some old =>
    have present : (tree.find t key).isSome = true := Option.isSome_of_eq_some there
    rw [lawful.insert_old value present, if_neg Bool.false_ne_true, lawful.find_assign value present]

/-- Over such a tree the engine is the table of what it finds. -/
theorem Lawful.exec_find (lawful : tree.Lawful) (op : Option OpName) (key : String) (req : PmRpc) (t : τ) :
    (tree.exec op key req t).map (fun r => (tree.find r.1, r.2)) = Table.exec op key req (tree.find t) := by
  unfold exec Table.exec
  split
  · rfl
  · rw [Option.map_map]
    simp only [Function.comp_def, lawful.find_put]
  · rfl

end PersistentBTree

/-- The response to a change of a queue. -/
def changed (key : BitVec 64) (ret : Int) : PmRpc := respond (if ret = 0 then .ok else .failed) key zeros

/-- `insert`, `increase_prio` and `decrease_prio` of one shard of `ShardedPriorityQueueEngine`.  The key of
the last two is an `unsigned`. -/
def Queue.exec (undoLog : Bool) (k : Nat) (op : Option OpName) (req : PmRpc) (q : Queue) :
    Option (Queue × PmRpc) :=
  let narrow : BitVec 64 := (req.key.setWidth 32).setWidth 64
  match op with
  | some .insert =>
    (q.insert undoLog k req.key.toNat req.key2).map fun r => (r.1, changed req.key r.2)
  | some .increasePrio =>
    (q.increasePrio undoLog k narrow.toNat req.key2).map fun r => (r.1, changed narrow r.2)
  | some .decreasePrio =>
    (q.decreasePrio undoLog k narrow.toNat req.key2).map fun r => (r.1, changed narrow r.2)
  | _ => some (q, answer .invalidOp)

/-- The same of any shard.  Every element is behind a pointer, and only a key that is not found needs
none. -/
def Shard.exec (undoLog : Bool) (k : Nat) (op : Option OpName) (req : PmRpc) :
    Shard → Option (Shard × PmRpc)
  | .live queue => (queue.exec undoLog k op req).map fun r => (.live r.1, r.2)
  | .stale keymap =>
    let narrow : BitVec 64 := (req.key.setWidth 32).setWidth 64
    match op with
    | some .insert => none
    | some .increasePrio | some .decreasePrio =>
      if (keymap narrow.toNat).isSome then none else some (.stale keymap, changed narrow (-1))
    | _ => some (.stale keymap, answer .invalidOp)

/-- `add_edge` and `vertex_outdegree` of `AdjVectorEngine`. -/
def Graph.exec (op : Option OpName) (req : PmRpc) (g : Graph) : Option (Graph × PmRpc) :=
  match op with
  | some .addEdge =>
    (g.addEdge ⟨req.key.toNat, req.key2⟩).map fun r => (r.1, answer (if r.2 then .ok else .failed))
  | some .vertexOutdegree =>
    if req.key.toNat > maxNodes - 1 then none
    else some (g, respond .ok (.ofNat 64 (g.vertexOutdegree req.key.toNat)) zeros)
  | _ => some (g, answer .invalidOp)

/-- The operations of the two hash maps and the tree. -/
def ofTable (op : Option OpName) : Bool := op = some .get || op = some .put

/-- The operations of the queues. -/
def ofQueue (op : Option OpName) : Bool :=
  op = some .insert || op = some .increasePrio || op = some .decreasePrio

/-- The operations of the graph. -/
def ofGraph (op : Option OpName) : Bool := op = some .addEdge || op = some .vertexOutdegree

/-- A part of an engine that the operations `mine` use; any other operation is not valid. -/
def onPart {P : Type} (mine : Bool) (f : P → Option (P × PmRpc)) (part : Option P) :
    Option (Option P × PmRpc) :=
  if mine then part.bind fun p => (f p).map fun r => (some r.1, r.2) else (some (part, answer .invalidOp))

/-- The shard of a thread. -/
def onShard {P : Type} (threadId : Nat) (mine : Bool) (f : P → Option (P × PmRpc)) (shards : Nat → Option P) :
    Option ((Nat → Option P) × PmRpc) :=
  (onPart mine f (shards threadId)).map fun r => (Function.update shards threadId r.1, r.2)

/-- What `AdjVectorEngine` answers without a look at `list_array`: `ADD_NODE` does nothing, and an edge is
checked first. -/
def Graph.atOnce (op : Option OpName) (req : PmRpc) : Option PmRpc :=
  match op with
  | some .addNode => some ⟨0, 0, zeros⟩
  | some .addEdge => if Edge.InRange ⟨req.key.toNat, req.key2⟩ then none else some (answer .failed)
  | _ => none

/-- `AdjVectorEngine::exec`. -/
def Graph.listExec (op : Option OpName) (req : PmRpc) (listArray : Option Graph) :
    Option (Option Graph × PmRpc) :=
  match Graph.atOnce op req with
  | some resp => some (listArray, resp)
  | none => onPart (ofGraph op) (Graph.exec op req) listArray

/-- `exec` of the engines. -/
def Engine.exec (undoLog : Bool) (threadId : Nat) (op : Option OpName) (req : PmRpc) :
    Engine → Option (Engine × PmRpc)
  | .btree m => (m.exec op req.key.toNat.repr req).map fun r => (.btree r.1, r.2)
  | .hashMap m => (m.exec op req.key req).map fun r => (.hashMap r.1, r.2)
  | .shardedHashMap container =>
    (onShard threadId (ofTable op) (Table.exec op req.key req) container).map fun r => (.shardedHashMap r.1, r.2)
  | .shardedPriorityQueue k myPq =>
    (onShard threadId (ofQueue op) (Shard.exec undoLog k op req) myPq).map fun r =>
      (.shardedPriorityQueue k r.1, r.2)
  | .adjVector listArray => (Graph.listExec op req listArray).map fun r => (.adjVector r.1, r.2)

/-! ## Pools -/

/-- What the library for pools finds at a path: no file, a pool with what its root leads to, or an error
that it throws. -/
inductive Pool (R : Type)
  | absent
  | holds (root : Option R)
  | fails

/-- The root of a pool that is opened, or created: then it is null. -/
def Pool.root {R : Type} : Pool R → Option (Option R)
  | .absent => some none
  | .holds root => some root
  | .fails => none

/-- The root of a queue: the positions of its keys, and whether its vectors hold pointers.  `maxheap_ptr` has
one only when `minheap_ptr` has. -/
structure QueueRoot where
  keymap : KeyMap
  filled : Bool

/-- What a call finds in the file system: the pool at its path, the pools of the shards of a queue, and
whether `std::remove` succeeds. -/
structure Files where
  pool : Pool Engine
  shards : Nat → Pool QueueRoot
  removes : Bool

/-- An empty directory. -/
def Files.empty : Files := ⟨.absent, fun _ => .absent, true⟩

/-- `MAX_PARTITIONS`. -/
def maxPartitions : Nat := 4

/-- `NTOP_K`. -/
def ntopK : Nat := 8

/-- Shards from the first on. -/
def shardsOf {P : Type} (n : Nat) (fresh : P) (i : Nat) : Option P := if i < n then some fresh else none

/-- The shards that are opened one by one; nothing when one is not there. -/
def reopen {P : Type} (n : Nat) (shards : Nat → Option P) : Option (Nat → Option P) :=
  if (List.range n).all fun i => (shards i).isSome then
    some fun i => if i < n then shards i else none
  else none

/-- `Recover` of a queue. -/
def Shard.recover : Option QueueRoot → Shard
  | none => .live .empty
  | some root => if root.filled then .stale root.keymap else .live ⟨[], [], root.keymap⟩

/-- The engine that the first pointer of a root leads to, for an engine of this type.  A sharded map without
its first shard has a null pointer there, and a graph has a size, which as a pointer is of no open pool. -/
def Engine.rooted (type : DsType) : Engine → Option Engine
  | .shardedHashMap container => (container 0).map fun _ => .shardedHashMap container
  | .adjVector listArray => if type = .adjacencyVector then some (.adjVector listArray) else none
  | e => some e

/-- `Recover` of the engines with one pool, from the root.  A graph that is there is not recovered, and the
size that its engine looks for is not zero in the pool of any other.  Without partitions a sharded map does
not follow its pointers. -/
def recover (npartitions : Nat) : DsType → Option Engine → Option Engine
  | .sortedBtree, none => some (.btree fun _ => none)
  | .sortedBtree, some (.btree m) => some (.btree m)
  | .concurrentHashmap, none => some (.hashMap fun _ => none)
  | .concurrentHashmap, some (.hashMap m) => some (.hashMap m)
  | .shardedHashmap, none =>
    if npartitions ≤ maxPartitions then some (.shardedHashMap (shardsOf npartitions fun _ => none)) else none
  | .shardedHashmap, some (.shardedHashMap container) =>
    if npartitions ≤ maxPartitions then (reopen npartitions container).map .shardedHashMap else none
  | .shardedHashmap, some _ => if npartitions = 0 then some (.shardedHashMap fun _ => none) else none
  | .adjacencyVector, none => some (.adjVector (some fun _ => none))
  | .adjacencyVector, some _ => some (.adjVector none)
  | _, _ => none

/-- The constructors of the engines. -/
def construct (npartitions : Nat) (files : Files) (type : DsType) : Option Engine :=
  if type = .shardedPriorityQueue then
    let n := max npartitions 1
    if n ≤ maxPartitions then
      (reopen n fun i => (files.shards i).root.map Shard.recover).map (.shardedPriorityQueue (ntopK / n))
    else none
  else files.pool.root.bind fun root => recover npartitions type (root.bind (Engine.rooted type))

/-! ## The library -/

/-- A `PMEngine *` in the map: the number of the engine, and what it stores. -/
structure Slot where
  serial : Nat
  engine : Engine

/-- `PMLib`.  The pointer to the map is not set before the first `open`. -/
structure PMLib where
  npartitions : Nat
  engineMap : Option (Nat → Option Slot)
  made : Nat

/-- An article of a top-k response. -/
structure Article where
  idx : BitVec 64
  art : Vector Byte 16
deriving DecidableEq

/-- The response: none is set when a title is missing. -/
inductive Reply
  | rpc (r : PmRpc)
  | articles (l : List Article)
  | unset
deriving DecidableEq

namespace PMLib

variable (lib : PMLib)

/-- `find_ds`. -/
def findDs (id : Nat) : Option Slot := lib.engineMap.bind fun map => map id

def openLib : PMLib := { lib with engineMap := some fun _ => none }

/-- `close`: the loop advances an iterator whose element it has erased. -/
def closeLib : Option PMLib :=
  lib.engineMap.bind fun map =>
    if (List.range (2 ^ 16)).all fun id => (map id).isNone then some lib else none

/-- `create_ds`: `insert` leaves an engine that is in the map alone. -/
def createDs (files : Files) (type id : Nat) : Option (PMLib × Reply) :=
  match DsType.ofCode type with
  | none => none
  | some .vector => some (lib, .rpc (answer .failed))
  | some type => do
      let engine ← construct lib.npartitions files type
      let map ← lib.engineMap
      let map := if (map id).isNone then Function.update map id (some ⟨lib.made, engine⟩) else map
      some ({ lib with engineMap := some map, made := lib.made + 1 }, .rpc (answer .ok))

def closeDs (id : Nat) : Option (PMLib × Reply) :=
  lib.engineMap.map fun map =>
    if (map id).isSome then
      ({ lib with engineMap := some (Function.update map id none) }, .rpc (answer .ok))
    else (lib, .rpc (answer .failed))

/-- The titles of the keys; nothing when one is missing.  Behind the end of a title the bytes of an article
are zeros here: the source leaves them as they were on its stack, and sends them. -/
def titles (m : Table (BitVec 64)) : List Nat → Option (List Article)
  | [] => some []
  | key :: keys =>
    match m (.ofNat 64 key) with
    | none => none
    | some title => (titles m keys).map (⟨.ofNat 64 key, printed title⟩ :: ·)

/-- The loop of `vote_topk` over the partitions, with its early return. -/
def collect (hm pq : Engine) : List Nat → Option (Option (List Article))
  | [] => some (some [])
  | i :: is =>
    match hm, pq with
    | .shardedHashMap container, .shardedPriorityQueue _ myPq => do
        let m ← container i
        let q ← (← myPq i).queue
        match titles m q.readTopK with
        | none => some none
        | some here => (collect hm pq is).map (Option.map (here ++ ·))
    | _, _ => none

/-- `vote_topk`: the hash map has id 0 and the queue id 1. -/
def voteTopk : Option Reply := do
  let hm ← lib.findDs 0
  let pq ← lib.findDs 1
  let result ← collect hm.engine pq.engine (List.range lib.npartitions)
  match result with
  | none => some .unset
  | some l => some (.articles l)

/-- A request for an engine of the map. -/
def onSlot (f : Engine → Option (Engine × PmRpc)) : Option Slot → Option (Option Slot × Reply)
  | none => none
  | some slot => (f slot.engine).map fun r => (some ⟨slot.serial, r.1⟩, .rpc r.2)

/-- `exec`. -/
def exec (undoLog : Bool) (files : Files) (threadId : Nat) (req : PmRpc) : Option (PMLib × Reply) :=
  let op := OpName.ofCode (opId req.word)
  match op with
  | some .openLib => some (lib.openLib, .rpc (answer .ok))
  | some .closeLib => lib.closeLib.map (·, .rpc (answer .ok))
  | some .createDs => lib.createDs files (typeId req.word) (dsId req.word)
  | some .closeDs => lib.closeDs (dsId req.word)
  | some .removeDs => some (lib, .rpc (answer (if files.removes then .ok else .failed)))
  | some .getTopk => lib.voteTopk.map (lib, ·)
  | _ =>
    lib.engineMap.bind fun map =>
      (onSlot (Engine.exec undoLog threadId op req) (map (dsId req.word))).map fun r =>
        ({ lib with engineMap := some (Function.update map (dsId req.word) r.1) }, r.2)

end PMLib

/-- A library that was just constructed. -/
def PMLib.new (npartitions : Nat) : PMLib := ⟨npartitions, none, 0⟩

end Cyclone.Pmemds
