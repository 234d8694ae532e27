/-
# Pmemds.KeyValue — what a `get` finds

The hash map and the tree as their clients use them: a string is put under a key, any clients send any
requests, and a later `get` is answered.  The string goes through a field of 16 bytes on its way in and on
its way out, so what comes back is its first 15 bytes, up to a zero.
-/
import Cyclone.Pmemds.Isolation
import Cyclone.Pmemds.Servers
import Mathlib.Data.List.TakeWhile

namespace Cyclone.Pmemds

open Cyclone.Theory

set_option autoImplicit false

/-! ## One engine -/

/-- A hash map or the tree. -/
def Engine.isTable : Engine → Bool
  | .btree _ | .hashMap _ => true
  | _ => false

/-- The string that is stored under a key. -/
def Engine.stored : Engine → BitVec 64 → Option (List Byte)
  | .btree m, key => m key.toNat.repr
  | .hashMap m, key => m key
  | _, _ => none

theorem Table.exec_spec {κ : Type} [DecidableEq κ] (op : Option OpName) {req : PmRpc} (ends : 0 ∈ req.value.toList)
    (m : Table κ) (key : κ) :
    ∃ r, m.exec op key req = some r ∧ (∀ k, ¬ (op = some .put ∧ key = k) → r.1 k = m k) ∧
      (op = some .put → r.1 key = some (cString req.value.toList)) ∧
      (op = some .get → r.2 = foundOr (m key)) := by
  unfold Table.exec
  split
  · exact ⟨_, rfl, fun _ _ => rfl, nofun, fun _ => rfl⟩
  · rw [stringOf, if_pos ends, Option.map_some]
    refine ⟨_, rfl, fun k other => Function.update_of_ne (fun same => other ⟨rfl, same.symm⟩) _ _, ?_, nofun⟩
    simp
  · rename_i notGet notPut
    exact ⟨_, rfl, fun _ _ => rfl, fun put => absurd put notPut, fun get => absurd get notGet⟩

variable {undoLog : Bool} {threadId : Nat} {op : Option OpName} {req : PmRpc}

/-- What a request does to what is stored. -/
theorem Engine.exec_stored {e : Engine} (table : e.isTable = true) (ends : 0 ∈ req.value.toList) :
    ∃ r, e.exec undoLog threadId op req = some r ∧ r.1.isTable = true ∧
      (∀ key, ¬ (op = some .put ∧ req.key = key) → r.1.stored key = e.stored key) ∧
      (op = some .put → r.1.stored req.key = some (cString req.value.toList)) ∧
      (op = some .get → r.2 = foundOr (e.stored req.key)) := by
  cases e with
  | btree m =>
    obtain ⟨r, ran, others, put, get⟩ := m.exec_spec op ends req.key.toNat.repr
    refine ⟨(.btree r.1, r.2), by rw [Engine.exec, ran]; rfl, rfl,
      fun key other => others _ fun both => other ⟨both.1, ?_⟩, put, get⟩
    exact BitVec.eq_of_toNat_eq (repr_injective both.2)
  | hashMap m =>
    obtain ⟨r, ran, spec⟩ := m.exec_spec op ends req.key
    exact ⟨(.hashMap r.1, r.2), by rw [Engine.exec, ran]; rfl, rfl, spec⟩
  | _ => cases table

/-- The field of a client's request ends in a zero, whatever it holds. -/
theorem Client.request_ends (c : Client) (ask : Ask) : 0 ∈ (c.request ask).value.toList := by
  have last : (c.request ask).value[15] = 0 := by
    cases ask <;> simp [request, payload, printed, ofKey2, zeros]
  exact Vector.mem_toList_iff.mpr (last ▸ Vector.getElem_mem _)

/-- A field that holds a string ends in zeros. -/
theorem field_eq {s : List Byte} (short : s.length ≤ 15) :
    (Vector.ofFn fun i : Fin 16 => s.getD i 0).toList = s ++ List.replicate (16 - s.length) 0 := by
  refine List.ext_getElem (by simp; omega) fun i inside inside' => ?_
  rw [List.getElem_append]
  split
  · rename_i within
    simp [within]
  · rename_i beyond
    simp [List.getElem?_eq_none (Nat.le_of_not_lt beyond)]

/-- A string that went through a field once goes through it unchanged. -/
theorem printed_cString (value : List Byte) : printed (cString (printed value).toList) = printed value := by
  have short : ((cString value).take 15).length ≤ 15 := List.length_take_le ..
  have clean : ∀ b ∈ (cString value).take 15, decide (b ≠ 0) = true := fun b member =>
    List.mem_takeWhile_imp (p := fun b : Byte => decide (b ≠ 0)) (List.mem_of_mem_take member)
  have kept : cString (printed value).toList = (cString value).take 15 := by
    rw [printed, field_eq short, cString, List.takeWhile_append_of_pos clean]
    simp
  have again : cString ((cString value).take 15) = (cString value).take 15 :=
    List.takeWhile_eq_self_iff.mpr clean
  rw [kept, printed, again, List.take_of_length_le short]
  rfl

/-! ## Requests one after the other -/

/-- The structure that is open under `d` is a table, with `value` under `key`. -/
def Realm.Has (w : Realm) (d : BitVec 16) (key : BitVec 64) (value : Option (List Byte)) : Prop :=
  ∃ n engine, (d, n) ∈ w.ledger ∧ w.lib.findDs (lowByte d) = some ⟨n, engine⟩ ∧
    engine.isTable = true ∧ engine.stored key = value

/-- A `close` of the structure, or a `put` of the key in it. -/
def Call.Replaces (d : BitVec 16) (key : BitVec 64) : Call → Prop
  | .on c .close => c.id = d
  | .on c (.put k _) => c.id = d ∧ k = key
  | _ => False

instance (d : BitVec 16) (key : BitVec 64) : DecidablePred (Call.Replaces d key) := fun call => by
  unfold Call.Replaces
  split <;> infer_instance

variable {lib : PMLib} {files : Files} {c : Client} {n : Nat} {engine : Engine}

/-- A request for data, executed by the engine in its place. -/
theorem exec_held (ask : Ask) (ofData : ask.ofData = true) (held : lib.findDs (lowByte c.id) = some ⟨n, engine⟩)
    {r : Engine × PmRpc} (handled : engine.exec undoLog threadId
      (OpName.ofCode (opId (c.request ask).word)) (c.request ask) = some r) :
    ∃ lib', lib.exec undoLog files threadId (c.request ask) = some (lib', .rpc r.2) ∧
      lib'.findDs (lowByte c.id) = some ⟨n, r.1⟩ := by
  obtain ⟨map, there, held⟩ := Option.bind_eq_some_iff.mp held
  rw [exec_ofData ofData, there, Option.bind_some, held, PMLib.onSlot, handled]
  exact ⟨_, rfl, by simp [PMLib.findDs]⟩

variable {w w' : Realm} {a : Arrival} {d : BitVec 16} {key : BitVec 64} {value : Option (List Byte)}

/-- A request for another id keeps the ledger's entry: the library does not close while it is there. -/
theorem stays (entry : (d, n) ∈ w.ledger) (held : w.lib.findDs (lowByte d) = some ⟨n, engine⟩)
    (other : a.call.target ≠ some d) (taken : w.step undoLog a = some w') : (d, n) ∈ w'.ledger := by
  obtain ⟨⟨lib, reply⟩, ran, rfl⟩ := Option.map_eq_some_iff.mp taken
  obtain ⟨call, threadId, files⟩ := a
  cases call with
  | closeLib appname =>
    have small : lowByte d < 2 ^ 16 := by
      rw [lowByte]
      omega
    rw [(findDs_closeLib ran).2 _ small] at held
    cases held
  | on c ask =>
    have different : d ≠ c.id := fun same => other (congrArg some same.symm)
    have filtered : (d, n) ∈ w.ledger.filter (·.1 ≠ c.id) :=
      List.mem_filter.mpr ⟨entry, by simpa using different⟩
    cases ask with
    | create =>
      dsimp only [Call.record]
      split
      · exact List.mem_cons_of_mem _ filtered
      · exact entry
    | close => exact filtered
    | _ => exact entry
  | _ => exact entry

/-- **One request.**  Whatever it is, it leaves the key alone unless it replaces it. -/
theorem Realm.Has.step (kept : w.Kept) (has : w.Has d key value) (orderly : w.Orderly a)
    (spares : ¬ a.call.Replaces d key) (taken : w.step undoLog a = some w') : w'.Has d key value := by
  obtain ⟨n, engine, entry, held, table, stored⟩ := has
  by_cases other : a.call.target ≠ some d
  · have same := kept.unchanged entry orderly other taken
    exact ⟨n, engine, stays entry held other taken, same.trans held, table, stored⟩
  · obtain ⟨⟨lib, reply⟩, ran, rfl⟩ := Option.map_eq_some_iff.mp taken
    obtain ⟨call, threadId, files⟩ := a
    cases call with
    | on c ask =>
      obtain rfl : c.id = d := by simpa [Call.target] using other
      by_cases ofData : ask.ofData = true
      · obtain ⟨r, handled, table', others, -⟩ := engine.exec_stored table (c.request_ends ask)
        obtain ⟨lib', made, place⟩ := exec_held ask ofData held handled
        have same : Call.record w.lib.made reply w.ledger (.on c ask) = w.ledger := by
          cases ask <;> simp [Ask.ofData] at ofData <;> rfl
        cases made.symm.trans ran
        refine ⟨n, r.1, same.symm ▸ entry, place, table', (others key fun put => spares ?_).trans stored⟩
        cases ask <;> simp [Client.request, Client.payload] at put
        exact ⟨rfl, put⟩
      · cases ask <;> simp only [Ask.ofData, not_true_eq_false] at ofData
        case create => exact absurd rfl (orderly _ entry)
        case close => exact absurd rfl spares
        case remove =>
          obtain ⟨rfl, -⟩ := Prod.mk.inj (Option.some.inj (exec_remove.symm.trans ran))
          exact ⟨n, engine, entry, held, table, stored⟩
    | _ => simp [Call.target] at other

/-- **A `get` finds the last `put`.**  In a run of orderly requests of any clients: a string is put under a
key of an open hash map or tree, and then come any requests but a `put` of that key or a `close` of that
structure.  A `get` of the key is then answered with the string, as far as the field of a response holds
it. -/
theorem get_after_put {npartitions : Nat} {w'' : Realm} {type type' : DsType} {string : List Byte}
    (run : Path (Realm.step undoLog) Realm.Orderly (Realm.start npartitions) w)
    (before : w.Has d key value) (orderly : w.Orderly a)
    (call : a.call = .on ⟨type, d⟩ (.put key string)) (taken : w.step undoLog a = some w')
    (between : Path (Realm.step undoLog) (fun v b => v.Orderly b ∧ ¬ b.call.Replaces d key) w' w'')
    (files : Files) (threadId : Nat) :
    (w''.lib.exec undoLog files threadId (Client.request ⟨type', d⟩ (.get key))).map Prod.snd =
      some (.rpc (respond .ok 0 (printed string))) := by
  have kept : w.Kept := run.keeps (.start npartitions) fun _ _ _ kept ok next => kept.step ok next
  have kept' := kept.step orderly taken
  have has : w'.Has d key (some (cString (printed string).toList)) := by
    obtain ⟨n, engine, entry, held, table, -⟩ := before
    obtain ⟨⟨lib, reply⟩, ran, rfl⟩ := Option.map_eq_some_iff.mp taken
    obtain ⟨request, threadId, files⟩ := a
    obtain rfl : request = _ := call
    obtain ⟨r, handled, table', -, put, -⟩ := engine.exec_stored table (Client.request_ends ⟨type, d⟩ _)
    obtain ⟨lib', made, place⟩ := exec_held (c := ⟨type, d⟩) (.put key string) rfl held handled
    cases made.symm.trans ran
    exact ⟨n, r.1, entry, place, table', put (by simp [Client.request, Client.payload])⟩
  obtain ⟨-, n, engine, -, held, table, stored⟩ := between.keeps
    (I := fun v => v.Kept ∧ v.Has d key (some (cString (printed string).toList))) ⟨kept', has⟩
    fun v b v' both ok next => ⟨both.1.step ok.1 next, both.2.step both.1 ok.1 ok.2 next⟩
  obtain ⟨r, handled, -, -, -, get⟩ := engine.exec_stored table (Client.request_ends ⟨type', d⟩ _)
  obtain ⟨lib', made, -⟩ := exec_held (c := ⟨type', d⟩) (.get key) rfl held handled
  rw [made, Option.map_some, get (by simp [Client.request, Client.payload])]
  change some (Reply.rpc (foundOr (engine.stored key))) = _
  rw [stored, foundOr, printed_cString]

/-- Between the two another structure gets the key, the structure another key, and the other is closed. -/
theorem get_after_put_two : ∃ w : Realm, w.ledger = [(1, 0)] ∧
    w.answersGet 1 7 = some (.rpc (respond .ok 0 (printed [65, 66]))) := by
  have ran : ∃ w ∈ exec (Realm.step true) Realm.Orderly (Realm.start 4)
      [Call.plain (.openLib []), Call.plain (.on (clientOf 1) .create), Call.plain (.on (clientOf 2) .create)],
      (1, 0) ∈ w.ledger ∧ w.Orderly (Call.plain (.on (clientOf 1) (.put 7 [65, 66]))) ∧
        (∃ s ∈ w.lib.findDs 1, s.serial = 0 ∧ s.engine.isTable = true) ∧
        ∃ w' ∈ w.step true (Call.plain (.on (clientOf 1) (.put 7 [65, 66]))),
          ∃ w'' ∈ exec (Realm.step true) (fun v b => v.Orderly b ∧ ¬ b.call.Replaces 1 7) w'
            [Call.plain (.on (clientOf 2) (.put 7 [67])), Call.plain (.on (clientOf 1) (.put 8 [68])),
              Call.plain (.on (clientOf 2) .close)], w''.ledger = [(1, 0)] := by
    decide +kernel
  obtain ⟨w, run, entry, orderly, there, rest⟩ := Path.exists_of_exec ran
  obtain ⟨⟨serial, engine⟩, held, rfl, table⟩ := there
  obtain ⟨w', taken, rest⟩ := rest
  obtain ⟨w'', between, ledger⟩ := Path.exists_of_exec rest
  exact ⟨w'', ledger, get_after_put run ⟨0, engine, entry, held, table, rfl⟩ orderly rfl taken between _ _⟩

end Cyclone.Pmemds
