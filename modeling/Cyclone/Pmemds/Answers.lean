/-
# Pmemds.Answers — which requests get a response

`PMLib::exec` is to set a response for every request: `NOT_FOUND` when a request on data names an id
without an engine, a failure when the top-k procedure misses a structure or a title.  But `find_ds`
dereferences the end of the map, and the procedure returns without a response.  `PMLib.Serves` is what a
request needs from the library and its engines, and `answers_iff` says that nothing less will do.
-/
import Cyclone.Pmemds.Lib
import Cyclone.Pmemds.Returns

namespace Cyclone.Pmemds

open Cyclone.Theory

set_option autoImplicit false

/-! ## Engines -/

variable {undoLog : Bool} {threadId : Nat} {op : Option OpName} {req : PmRpc}

/-- A string that is put ends within its field. -/
def Table.Accepts (op : Option OpName) (req : PmRpc) : Prop := op = some .put → 0 ∈ req.value.toList

theorem Table.exec_isSome_iff {κ : Type} [DecidableEq κ] {key : κ} {m : Table κ} :
    (m.exec op key req).isSome = true ↔ Table.Accepts op req := by
  unfold Table.exec Table.Accepts
  split
  · exact iff_of_true rfl nofun
  · rw [Option.isSome_map, stringOf]
    split
    · rename_i ends
      exact iff_of_true rfl fun _ => ends
    · rename_i endless
      exact iff_of_false nofun fun ends => endless (ends rfl)
  · rename_i other
    exact iff_of_true rfl fun same => absurd same other

/-- What a queue needs for a call to return: a place that is inside its heap, and the root that it is
compared with. -/
def Queue.Accepts (k : Nat) (op : Option OpName) (req : PmRpc) (q : Queue) : Prop :=
  let place := q.keymap ((req.key.setWidth 32).setWidth 64 : BitVec 64).toNat
  match op with
  | some .insert => q.min.length < k ∨ q.min ≠ []
  | some .increasePrio => ∀ idx, place = some idx →
      if idx < k then idx < q.min.length else idx - k < q.max.length ∧ q.min ≠ []
  | some .decreasePrio => ∀ idx, place = some idx →
      if idx < k then idx < q.min.length ∧ q.max ≠ [] else idx - k < q.max.length
  | _ => True

theorem Queue.exec_isSome_iff {k : Nat} {q : Queue} :
    (q.exec undoLog k op req).isSome = true ↔ q.Accepts k op req := by
  cases op with
  | none => exact iff_of_true rfl trivial
  | some op =>
    cases op with
    | insert =>
      rw [exec, Option.isSome_map, insert_isSome_iff]
      rfl
    | increasePrio =>
      rw [exec, Option.isSome_map, increasePrio_isSome_iff]
      rfl
    | decreasePrio =>
      rw [exec, Option.isSome_map, decreasePrio_isSome_iff]
      rfl
    | _ => exact iff_of_true rfl trivial

/-- Without its elements a queue still finds that it has not got a key. -/
def Shard.Accepts (k : Nat) (op : Option OpName) (req : PmRpc) : Shard → Prop
  | .live queue => queue.Accepts k op req
  | .stale keymap =>
    match op with
    | some .insert => False
    | some .increasePrio | some .decreasePrio =>
      keymap ((req.key.setWidth 32).setWidth 64 : BitVec 64).toNat = none
    | _ => True

theorem Shard.exec_isSome_iff {k : Nat} {shard : Shard} :
    (shard.exec undoLog k op req).isSome = true ↔ shard.Accepts k op req := by
  cases shard with
  | live queue =>
    rw [exec, Option.isSome_map, Queue.exec_isSome_iff]
    rfl
  | stale keymap =>
    cases op with
    | none => exact iff_of_true rfl trivial
    | some op =>
      cases op with
      | insert => exact iff_of_false nofun id
      | increasePrio => simp [exec, Accepts]
      | decreasePrio => simp [exec, Accepts]
      | _ => exact iff_of_true rfl trivial

/-- The graph is asked for the degree of a node it has room for. -/
def Graph.Accepts (op : Option OpName) (req : PmRpc) : Prop :=
  op = some .vertexOutdegree → req.key.toNat ≤ maxNodes - 1

theorem Graph.exec_isSome_iff {g : Graph} : (g.exec op req).isSome = true ↔ Graph.Accepts op req := by
  unfold Graph.exec Graph.Accepts
  split
  · obtain ⟨g', added⟩ := g.addEdge_isSome ⟨req.key.toNat, req.key2⟩
    simp [added]
  · split <;> simp <;> omega
  · rename_i other
    exact iff_of_true rfl fun same => absurd same other

/-- What an engine needs for a request to return. -/
def Engine.Serves (threadId : Nat) (op : Option OpName) (req : PmRpc) : Engine → Prop
  | .btree _ => Table.Accepts op req
  | .hashMap _ => Table.Accepts op req
  | .shardedHashMap container =>
    ofTable op = true → (container threadId).isSome = true ∧ Table.Accepts op req
  | .shardedPriorityQueue k myPq =>
    ofQueue op = true → ∃ shard, myPq threadId = some shard ∧ shard.Accepts k op req
  | .adjVector listArray =>
    ofGraph op = true → op = some .addEdge ∧ ¬ Edge.InRange ⟨req.key.toNat, req.key2⟩ ∨
      listArray.isSome = true ∧ Graph.Accepts op req

theorem onPart_isSome_iff {A : Type} {mine : Bool} {f : A → Option (A × PmRpc)} {part : Option A} :
    (onPart mine f part).isSome = true ↔ (mine = true → ∃ a, part = some a ∧ (f a).isSome = true) := by
  unfold onPart
  cases mine <;> cases part <;> simp

/-- What the graph answers at once needs no list. -/
theorem Graph.atOnce_isSome_iff : (Graph.atOnce op req).isSome = true ↔
    op = some .addNode ∨ op = some .addEdge ∧ ¬ Edge.InRange ⟨req.key.toNat, req.key2⟩ := by
  unfold Graph.atOnce
  split
  · simp
  · split <;> simp [*]
  · rename_i notNode notEdge
    exact iff_of_false nofun fun either => either.elim notNode fun edge => notEdge edge.1

theorem Graph.listExec_isSome_iff {listArray : Option Graph} :
    (Graph.listExec op req listArray).isSome = true ↔
      (ofGraph op = true → op = some .addEdge ∧ ¬ Edge.InRange ⟨req.key.toNat, req.key2⟩ ∨
        listArray.isSome = true ∧ Graph.Accepts op req) := by
  have atOnce : (Graph.atOnce op req).isSome = true ↔ _ := Graph.atOnce_isSome_iff
  unfold Graph.listExec
  split
  · rename_i resp answered
    rw [answered] at atOnce
    refine iff_of_true rfl fun mine => ?_
    rcases atOnce.mp rfl with rfl | refused
    · cases mine
    · exact .inl refused
  · rename_i asked
    rw [asked] at atOnce
    have listed : ¬ (op = some .addEdge ∧ ¬ Edge.InRange ⟨req.key.toNat, req.key2⟩) := fun refused =>
      absurd (atOnce.mpr (.inr refused)) Bool.false_ne_true
    rw [onPart_isSome_iff, @Option.isSome_iff_exists _ listArray, or_iff_right listed]
    simp only [Graph.exec_isSome_iff, exists_and_right]

theorem Engine.exec_isSome_iff (undoLog : Bool) {e : Engine} :
    (e.exec undoLog threadId op req).isSome = true ↔ e.Serves threadId op req := by
  cases e with
  | btree m => rw [exec, Option.isSome_map, Table.exec_isSome_iff, Serves]
  | hashMap m => rw [exec, Option.isSome_map, Table.exec_isSome_iff, Serves]
  | shardedHashMap container =>
    rw [exec, onShard, Option.isSome_map, Option.isSome_map, onPart_isSome_iff, Serves,
      Option.isSome_iff_exists]
    simp only [Table.exec_isSome_iff, exists_and_right]
  | shardedPriorityQueue k myPq =>
    rw [exec, onShard, Option.isSome_map, Option.isSome_map, onPart_isSome_iff, Serves]
    simp only [Shard.exec_isSome_iff]
  | adjVector listArray => rw [exec, Option.isSome_map, Graph.listExec_isSome_iff, Serves]

/-! ## Pools -/

/-- The pool can be opened, and an engine that its root leads to is one of these. -/
def Pool.Leads (type : DsType) (these : Engine → Prop) (pool : Pool Engine) : Prop :=
  ∃ root, pool.root = some root ∧ ∀ e, root.bind (Engine.rooted type) = some e → these e

/-- What the constructor of an engine needs from the pools at its paths. -/
def Files.Open (files : Files) (npartitions : Nat) : DsType → Prop
  | .vector => False
  | .sortedBtree => files.pool.Leads .sortedBtree fun e => ∃ m, e = .btree m
  | .concurrentHashmap => files.pool.Leads .concurrentHashmap fun e => ∃ m, e = .hashMap m
  | .shardedHashmap => npartitions ≤ maxPartitions ∧ files.pool.Leads .shardedHashmap fun e =>
      npartitions = 0 ∨ ∃ container, e = .shardedHashMap container ∧ ∀ i < npartitions, (container i).isSome = true
  | .shardedPriorityQueue =>
    npartitions ≤ maxPartitions ∧ ∀ i < max npartitions 1, (files.shards i).root.isSome = true
  | .adjacencyVector => files.pool.Leads .adjacencyVector fun _ => True

theorem reopen_isSome_iff {P : Type} {n : Nat} {shards : Nat → Option P} :
    (reopen n shards).isSome = true ↔ ∀ i < n, (shards i).isSome = true := by
  unfold reopen
  split <;> simp_all

/-- An engine with one pool is made when it can be, and when the root has nothing else. -/
theorem leads_iff {type : DsType} {these : Engine → Prop} {pool : Pool Engine}
    {f : Option Engine → Option Engine}
    (fresh : (f none).isSome = true) (held : ∀ e, (f (some e)).isSome = true ↔ these e) :
    (pool.root.bind fun root => f (root.bind (Engine.rooted type))).isSome = true ↔
      pool.Leads type these := by
  unfold Pool.Leads
  cases pool.root with
  | none => simp
  | some root => cases rooted : root.bind (Engine.rooted type) <;> simp [rooted, fresh, held]

theorem construct_isSome_iff {npartitions : Nat} {type : DsType} {files : Files} :
    (construct npartitions files type).isSome = true ↔ files.Open npartitions type := by
  have one : max npartitions 1 ≤ maxPartitions ↔ npartitions ≤ maxPartitions := by
    simp [maxPartitions]
  unfold construct
  cases type with
  | vector =>
    rw [if_neg (by decide), Files.Open]
    cases files.pool.root <;> simp [recover]
  | sortedBtree =>
    rw [if_neg (by decide), leads_iff rfl fun e => ?_, Files.Open]
    cases e <;> simp [recover]
  | concurrentHashmap =>
    rw [if_neg (by decide), leads_iff rfl fun e => ?_, Files.Open]
    cases e <;> simp [recover]
  | adjacencyVector =>
    rw [if_neg (by decide), leads_iff rfl fun e => ?_, Files.Open]
    exact iff_of_true rfl trivial
  | shardedHashmap =>
    rw [if_neg (by decide), Files.Open]
    by_cases few : npartitions ≤ maxPartitions
    · rw [and_iff_right few, leads_iff (by simp [recover, few]) fun e => ?_]
      cases e with
      | shardedHashMap container => simp +contextual [recover, few, reopen_isSome_iff]
      | _ => simp [recover]
    · have nothing : ∀ root, recover npartitions .shardedHashmap root = none := by
        intro root
        have some_ : npartitions ≠ 0 := fun none_ => few (none_ ▸ Nat.zero_le _)
        rcases root with - | (_ | _ | _ | _ | _) <;> simp [recover, few, some_]
      simp only [nothing]
      cases files.pool.root <;> simp [few]
  | shardedPriorityQueue =>
    rw [if_pos rfl, Files.Open]
    dsimp only
    split
    · rename_i few
      rw [Option.isSome_map, reopen_isSome_iff, and_iff_right (one.mp few)]
      simp only [Option.isSome_map]
    · rename_i many
      exact iff_of_false nofun fun opens => many (one.mpr opens.1)

/-! ## The top-k procedure -/

theorem Shard.queue_eq_some {shard : Shard} {q : Queue} (held : shard.queue = some q) : shard = .live q := by
  cases shard with
  | live queue => exact congrArg Shard.live (Option.some.inj held)
  | stale keymap => cases held

namespace PMLib

variable {lib lib' : PMLib} {files : Files}

theorem titles_isSome_iff {m : Table (BitVec 64)} {keys : List Nat} :
    (titles m keys).isSome = true ↔ ∀ key ∈ keys, (m (.ofNat 64 key)).isSome = true := by
  induction keys with
  | nil => simp [titles]
  | cons key keys ih =>
    rw [titles, List.forall_mem_cons, ← ih]
    cases m (.ofNat 64 key) <;> simp

/-- A partition of the two engines: both shards are there, and the titles of the best articles. -/
def Partition (hm pq : Engine) (i : Nat) : Prop :=
  ∃ container k myPq m q, hm = .shardedHashMap container ∧ pq = .shardedPriorityQueue k myPq ∧
    container i = some m ∧ myPq i = some (.live q) ∧ ∀ key ∈ q.readTopK, (m (.ofNat 64 key)).isSome = true

theorem collect_iff {hm pq : Engine} {is : List Nat} :
    (∃ l, collect hm pq is = some (some l)) ↔ ∀ i ∈ is, Partition hm pq i := by
  induction is with
  | nil => simp [collect]
  | cons i is ih =>
    rw [List.forall_mem_cons, ← ih]
    constructor
    · rintro ⟨l, collected⟩
      cases hm with
      | shardedHashMap container =>
        cases pq with
        | shardedPriorityQueue k myPq =>
          simp only [collect, Option.bind_eq_bind, Option.bind_eq_some_iff] at collected
          obtain ⟨m, table, shard, there, q, queue, collected⟩ := collected
          obtain rfl := Shard.queue_eq_some queue
          split at collected
          · cases collected
          · rename_i here found
            obtain ⟨l', rest, joined⟩ := Option.map_eq_some_iff.mp collected
            obtain ⟨l'', rfl, -⟩ := Option.map_eq_some_iff.mp joined
            exact ⟨⟨container, k, myPq, m, q, rfl, rfl, table, there,
              titles_isSome_iff.mp (Option.isSome_of_eq_some found)⟩, l'', rest⟩
        | _ => cases collected
      | _ => cases collected
    · rintro ⟨⟨container, k, myPq, m, q, rfl, rfl, table, there, found⟩, l, rest⟩
      obtain ⟨here, titled⟩ := Option.isSome_iff_exists.mp (titles_isSome_iff.mpr found)
      exact ⟨here ++ l, by simp [collect, table, there, Shard.queue, titled, rest]⟩

/-- The structures of the top-k procedure are there, and all the titles. -/
def TopkComplete (lib : PMLib) : Prop :=
  ∃ hm pq, lib.findDs 0 = some hm ∧ lib.findDs 1 = some pq ∧
    ∀ i < lib.npartitions, Partition hm.engine pq.engine i

/-- The procedure sets a response when nothing is missing. -/
theorem voteTopk_iff : (∃ reply, lib.voteTopk = some reply ∧ reply ≠ .unset) ↔ lib.TopkComplete := by
  have all : ∀ hm pq : Engine, (∀ i < lib.npartitions, Partition hm pq i) ↔
      ∃ l, collect hm pq (List.range lib.npartitions) = some (some l) := by
    intro hm pq
    rw [collect_iff]
    simp only [List.mem_range]
  simp only [TopkComplete, voteTopk, all, Option.bind_eq_bind, Option.bind_eq_some_iff]
  constructor
  · rintro ⟨reply, ⟨hm, table, pq, queue, result, collected, set⟩, some_⟩
    cases result with
    | none =>
      cases set
      exact absurd rfl some_
    | some l => exact ⟨hm, pq, table, queue, l, collected⟩
  · rintro ⟨hm, pq, table, queue, l, collected⟩
    exact ⟨.articles l, ⟨hm, table, pq, queue, some l, collected, rfl⟩, nofun⟩

/-! ## Requests -/

/-- The operations that are not the library's own. -/
def ofEngine : Option OpName → Bool
  | some .openLib => false
  | some .closeLib => false
  | some .createDs => false
  | some .closeDs => false
  | some .removeDs => false
  | some .getTopk => false
  | _ => true

/-- The status of a response; that of the articles is in a word of zeros. -/
def replyStatus : Reply → Nat
  | .rpc r => statusOf r.word
  | _ => statusOf 0

/-- What is asked of a call for an operation on an id: a response is set, of the right status when something
is missing, and then the library stays as it is. -/
def Met (op : Option OpName) (id : Nat) (lib : PMLib) (called : Option (PMLib × Reply)) : Prop :=
  ∃ lib' reply, called = some (lib', reply) ∧ reply ≠ .unset ∧
    (ofEngine op = true → lib.findDs id = none →
      replyStatus reply = Status.notFound.code ∧ lib' = lib) ∧
    (op = some .getTopk → ¬ lib.TopkComplete → replyStatus reply ≠ Status.ok.code ∧ lib' = lib)

/-- The request is answered. -/
def Answers (undoLog : Bool) (files : Files) (threadId : Nat) (req : PmRpc) (lib : PMLib) : Prop :=
  Met (OpName.ofCode (opId req.word)) (dsId req.word) lib (lib.exec undoLog files threadId req)

/-- What a request needs. -/
def Serves (files : Files) (threadId : Nat) (req : PmRpc) (lib : PMLib) : Prop :=
  match OpName.ofCode (opId req.word) with
  | some .openLib => True
  | some .removeDs => True
  | some .closeLib => ∃ map, lib.engineMap = some map ∧ ∀ id < 2 ^ 16, map id = none
  | some .createDs => ∃ type, DsType.ofCode (typeId req.word) = some type ∧
      (type = .vector ∨ lib.engineMap.isSome = true ∧ files.Open lib.npartitions type)
  | some .closeDs => lib.engineMap.isSome = true
  | some .getTopk => lib.TopkComplete
  | op => ∃ slot, lib.findDs (dsId req.word) = some slot ∧ slot.engine.Serves threadId op req

variable {id : Nat}

/-- A request for an engine. -/
theorem met_ofEngine (routed : ofEngine op = true) :
    Met op id lib (lib.engineMap.bind fun map =>
      (onSlot (Engine.exec undoLog threadId op req) (map id)).map fun r =>
        ({ lib with engineMap := some (Function.update map id r.1) }, r.2)) ↔
      ∃ slot, lib.findDs id = some slot ∧ slot.engine.Serves threadId op req := by
  have other : op ≠ some .getTopk := by
    rintro rfl
    cases routed
  simp only [Met, Option.bind_eq_some_iff, Option.map_eq_some_iff]
  constructor
  · rintro ⟨lib', reply, ⟨map, set, ⟨slot', reply'⟩, handed, -⟩, -⟩
    cases found : map id with
    | none =>
      rw [found] at handed
      cases handed
    | some slot =>
      rw [found] at handed
      obtain ⟨r, ran, -⟩ := Option.map_eq_some_iff.mp handed
      refine ⟨slot, ?_, (Engine.exec_isSome_iff undoLog).mp (Option.isSome_of_eq_some ran)⟩
      rw [findDs, set, Option.bind_some, found]
  · rintro ⟨slot, found, serves⟩
    obtain ⟨map, set, there⟩ := Option.bind_eq_some_iff.mp found
    obtain ⟨r, ran⟩ := Option.isSome_iff_exists.mp ((Engine.exec_isSome_iff undoLog).mpr serves)
    refine ⟨_, .rpc r.2, ⟨map, set, (some ⟨slot.serial, r.1⟩, .rpc r.2), ?_, rfl⟩, nofun, ?_, ?_⟩
    · rw [there, onSlot, ran]
      rfl
    · rw [found]
      exact fun _ none_ => absurd none_ (Option.some_ne_none slot)
    · exact fun same => absurd same other

/-- A request for the library itself. -/
theorem met_own {called : Option (PMLib × Reply)} (own : ofEngine op = false) (other : op ≠ some .getTopk)
    (set : ∀ r, called = some r → r.2 ≠ .unset) : Met op id lib called ↔ called.isSome = true := by
  constructor
  · rintro ⟨lib', reply, ran, -⟩
    exact Option.isSome_of_eq_some ran
  · intro returned
    obtain ⟨r, ran⟩ := Option.isSome_iff_exists.mp returned
    exact ⟨r.1, r.2, ran, set r ran, fun routed => absurd (own.symm.trans routed) Bool.false_ne_true,
      fun same => absurd same other⟩

theorem met_closeLib : Met (some .closeLib) id lib (lib.closeLib.map (·, .rpc (answer .ok))) ↔
    ∃ map, lib.engineMap = some map ∧ ∀ id < 2 ^ 16, map id = none := by
  rw [met_own rfl (by decide), Option.isSome_map, closeLib]
  · cases lib.engineMap with
    | none => simp
    | some map =>
      rw [Option.bind_some]
      split <;> simp_all
  · intro r ran
    obtain ⟨lib', -, rfl⟩ := Option.map_eq_some_iff.mp ran
    exact nofun

theorem met_createDs {type : Nat} :
    Met (some .createDs) id lib (lib.createDs files type id) ↔ ∃ t, DsType.ofCode type = some t ∧
      (t = .vector ∨ lib.engineMap.isSome = true ∧ files.Open lib.npartitions t) := by
  have built : ∀ (t : DsType) (f : Engine → (Nat → Option Slot) → PMLib), t ≠ .vector →
      (Met (some .createDs) id lib ((construct lib.npartitions files t).bind fun engine =>
        lib.engineMap.bind fun map => some (f engine map, .rpc (answer .ok))) ↔
        ∃ t', some t = some t' ∧
          (t' = .vector ∨ lib.engineMap.isSome = true ∧ files.Open lib.npartitions t')) := by
    intro t f other
    rw [met_own rfl (by decide)]
    · simp only [Option.some_inj, exists_eq_left', other, false_or, ← construct_isSome_iff]
      cases construct lib.npartitions files t <;> cases lib.engineMap <;> simp
    · intro r ran
      obtain ⟨engine, -, ran⟩ := Option.bind_eq_some_iff.mp ran
      obtain ⟨map, -, ran⟩ := Option.bind_eq_some_iff.mp ran
      cases ran
      exact nofun
  unfold createDs
  cases DsType.ofCode type with
  | none => simp [Met]
  | some t =>
    cases t with
    | vector => exact iff_of_true ⟨_, _, rfl, nofun, nofun, nofun⟩ ⟨_, rfl, .inl rfl⟩
    | _ => exact built _ _ (by decide)

theorem met_closeDs : Met (some .closeDs) id lib (lib.closeDs id) ↔ lib.engineMap.isSome = true := by
  rw [met_own rfl (by decide), closeDs, Option.isSome_map]
  intro r ran
  obtain ⟨map, -, rfl⟩ := Option.map_eq_some_iff.mp ran
  split <;> exact nofun

theorem met_getTopk : Met (some .getTopk) id lib (lib.voteTopk.map (lib, ·)) ↔ lib.TopkComplete := by
  rw [← voteTopk_iff]
  constructor
  · rintro ⟨lib', reply, ran, set, -⟩
    obtain ⟨reply, voted, done⟩ := Option.map_eq_some_iff.mp ran
    cases done
    exact ⟨reply, voted, set⟩
  · rintro ⟨reply, voted, set⟩
    refine ⟨lib, reply, by rw [voted]; rfl, set, nofun, fun _ missing => ?_⟩
    exact absurd (voteTopk_iff.mp ⟨reply, voted, set⟩) missing

end PMLib

end Cyclone.Pmemds
