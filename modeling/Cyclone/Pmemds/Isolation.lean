/-
# Pmemds.Isolation — which engine executes a request

The requests of several clients arrive one after the other.  A ledger records what the clients may rely
on: the number of the engine that the last successful `create` for an id made, until a `close` for the id
or of the library.

* `isolated`: in every run whose requests are orderly, the requests for an id in the ledger go to that
  engine, and requests for other ids leave it alone.
* `astray`: three runs that are not.  Ids with one low byte share an engine; `open` drops the engines
  that are there; a second `create` succeeds and its engine is never used.
-/
import Cyclone.Pmemds.Lib

namespace Cyclone.Pmemds

open Cyclone.Theory

set_option autoImplicit false

/-! ## Requests one after the other -/

/-- A request of some client. -/
inductive Call
  | openLib (appname : List Byte)
  | closeLib (appname : List Byte)
  | topk
  | on (c : Client) (ask : Ask)
deriving DecidableEq

def Call.request : Call → PmRpc
  | .openLib appname => openRequest appname
  | .closeLib appname => closeRequest appname
  | .topk => topkRequest
  | .on c ask => c.request ask

/-- The id that a request was built for. -/
def Call.target : Call → Option (BitVec 16)
  | .on c _ => some c.id
  | _ => none

/-- A request for the data of a structure, not for the structure. -/
def Ask.ofData : Ask → Bool
  | .create | .close | .remove => false
  | _ => true

/-- The byte of the id that a request carries. -/
def lowByte (id : BitVec 16) : Nat := id.toNat % 256

/-- The library, and the engines that were created for the ids that are open. -/
structure Realm where
  lib : PMLib
  ledger : List (BitVec 16 × Nat)

/-- A request, the thread that executes it and the files it finds. -/
structure Arrival where
  call : Call
  threadId : Nat
  files : Files

/-- What a call and its response mean to the clients. -/
def Call.record (made : Nat) (reply : Reply) (ledger : List (BitVec 16 × Nat)) : Call → List (BitVec 16 × Nat)
  | .on c .create =>
    if reply = .rpc (answer .ok) then (c.id, made) :: ledger.filter (·.1 ≠ c.id) else ledger
  | .on c .close => ledger.filter (·.1 ≠ c.id)
  | .closeLib _ => []
  | _ => ledger

section Steps

variable (undoLog : Bool)

def Realm.step (w : Realm) (a : Arrival) : Option Realm :=
  (w.lib.exec undoLog a.files a.threadId a.call.request).map fun r =>
    ⟨r.1, a.call.record w.lib.made r.2 w.ledger⟩

end Steps

def Realm.start (npartitions : Nat) : Realm := ⟨.new npartitions, []⟩

/-- `open` comes when nothing is open, a structure is created for a byte that is not in use, and any other
request is for an id whose byte no other open id has. -/
def Call.Orderly (ledger : List (BitVec 16 × Nat)) : Call → Prop
  | .openLib _ => ledger = []
  | .closeLib _ | .topk => True
  | .on c .create => ∀ entry ∈ ledger, lowByte entry.1 ≠ lowByte c.id
  | .on c _ => ∀ entry ∈ ledger, lowByte entry.1 = lowByte c.id → entry.1 = c.id

instance (ledger : List (BitVec 16 × Nat)) : ∀ call, Decidable (Call.Orderly ledger call)
  | .openLib _ => inferInstanceAs (Decidable (_ = _))
  | .closeLib _ | .topk => isTrue trivial
  | .on c ask => by cases ask <;> unfold Call.Orderly <;> infer_instance

def Realm.Orderly (w : Realm) (a : Arrival) : Prop := a.call.Orderly w.ledger

instance (w : Realm) (a : Arrival) : Decidable (w.Orderly a) := inferInstanceAs (Decidable (Call.Orderly ..))

/-! ## How requests are routed -/

section Routing

variable {undoLog : Bool} {lib : PMLib} {files : Files} {threadId : Nat} {c : Client}

/-- A request for data goes to the engine in the place of its low byte. -/
theorem exec_ofData {ask : Ask} (ofData : ask.ofData = true) :
    lib.exec undoLog files threadId (c.request ask) = lib.engineMap.bind fun map =>
      (PMLib.onSlot (Engine.exec undoLog threadId (OpName.ofCode (opId (c.request ask).word)) (c.request ask))
        (map (lowByte c.id))).map fun r =>
          ({ lib with engineMap := some (Function.update map (lowByte c.id) r.1) }, r.2) := by
  cases ask <;> simp only [Ask.ofData, Bool.false_eq_true] at ofData
  all_goals
    simp only [PMLib.exec, Client.request, Client.payload, opId_pack, dsId_pack, OpName.ofCode_code]
    rfl

theorem exec_create : lib.exec undoLog files threadId (c.request .create) =
    lib.createDs files c.type.code (lowByte c.id) := by
  simp only [PMLib.exec, Client.request, Client.payload, opId_pack, dsId_pack, typeId_pack, OpName.ofCode_code]
  rfl

theorem exec_close : lib.exec undoLog files threadId (c.request .close) = lib.closeDs (lowByte c.id) := by
  simp only [PMLib.exec, Client.request, Client.payload, opId_pack, dsId_pack, OpName.ofCode_code]
  rfl

theorem exec_remove : lib.exec undoLog files threadId (c.request .remove) =
    some (lib, .rpc (answer (if files.removes then .ok else .failed))) := by
  simp only [PMLib.exec, Client.request, Client.payload, opId_pack, OpName.ofCode_code]

theorem exec_open (appname : List Byte) : lib.exec undoLog files threadId (openRequest appname) =
    some (lib.openLib, .rpc (answer .ok)) := by
  have op : OpName.ofCode (opId (openRequest appname).word) = some .openLib := by
    change OpName.ofCode (opId (setOpId 0 OpName.openLib.code)) = _
    decide
  rw [PMLib.exec, op]

theorem exec_closeLib (appname : List Byte) : lib.exec undoLog files threadId (closeRequest appname) =
    lib.closeLib.map (·, .rpc (answer .ok)) := by
  have op : OpName.ofCode (opId (closeRequest appname).word) = some .closeLib := by
    change OpName.ofCode (opId (setOpId 0 OpName.closeLib.code)) = _
    decide
  rw [PMLib.exec, op]

theorem exec_topk : lib.exec undoLog files threadId topkRequest = lib.voteTopk.map (lib, ·) := by
  have op : OpName.ofCode (opId topkRequest.word) = some .getTopk := by decide
  rw [PMLib.exec, op]

end Routing

/-! ## What a request does to the map -/

section Places

variable {undoLog : Bool} {lib lib' : PMLib} {files : Files} {threadId : Nat} {c : Client} {reply : Reply}

/-- What `find_ds` finds when the map is there. -/
theorem findDs_of_map {map : Nat → Option Slot} (there : lib.engineMap = some map) : lib.findDs = map := by
  funext i
  rw [PMLib.findDs, there, Option.bind_some]

/-- The library is closed only when nothing is open. -/
theorem findDs_closeLib {appname : List Byte}
    (ran : lib.exec undoLog files threadId (closeRequest appname) = some (lib', reply)) :
    lib' = lib ∧ ∀ i < 2 ^ 16, lib.findDs i = none := by
  rw [exec_closeLib] at ran
  obtain ⟨_, closed, eq⟩ := Option.map_eq_some_iff.mp ran
  obtain ⟨rfl, -⟩ := Prod.mk.inj eq
  obtain ⟨map, there, closed⟩ := Option.bind_eq_some_iff.mp closed
  split at closed
  · rename_i empty
    refine ⟨(Option.some.inj closed).symm, fun i small => ?_⟩
    have free := List.all_eq_true.mp empty i (List.mem_range.mpr small)
    rw [findDs_of_map there]
    exact Option.isNone_iff_eq_none.mp free
  · cases closed

/-- The engine in one place is replaced by what is stored in it after the request. -/
theorem findDs_ofData {ask : Ask} (ofData : ask.ofData = true)
    (ran : lib.exec undoLog files threadId (c.request ask) = some (lib', reply)) :
    ∃ slot engine, lib.findDs (lowByte c.id) = some slot ∧
      lib'.findDs = Function.update lib.findDs (lowByte c.id) (some ⟨slot.serial, engine⟩) := by
  rw [exec_ofData ofData] at ran
  obtain ⟨map, there, ran⟩ := Option.bind_eq_some_iff.mp ran
  obtain ⟨r, handled, eq⟩ := Option.map_eq_some_iff.mp ran
  obtain ⟨rfl, -⟩ := Prod.mk.inj eq
  have places := findDs_of_map there
  cases held : map (lowByte c.id) with
  | none =>
    rw [held] at handled
    cases handled
  | some slot =>
    rw [held] at handled
    obtain ⟨r', -, rfl⟩ := Option.map_eq_some_iff.mp handled
    refine ⟨slot, r'.1, ?_, ?_⟩
    · rw [places, held]
    · rw [places]
      rfl

variable {id : Nat}

/-- A structure that was created is in its place, unless another was there. -/
theorem findDs_createDs {type : Nat}
    (ran : lib.createDs files type id = some (lib', reply)) :
    (reply ≠ .rpc (answer .ok) ∧ lib' = lib) ∨ (reply = .rpc (answer .ok) ∧
      (lib.findDs id = none → ∃ engine,
        lib'.findDs = Function.update lib.findDs id (some ⟨lib.made, engine⟩))) := by
  rw [PMLib.createDs] at ran
  cases named : DsType.ofCode type with
  | none =>
    rw [named] at ran
    cases ran
  | some type =>
    rw [named] at ran
    cases type
    case vector =>
      obtain ⟨rfl, rfl⟩ := Prod.mk.inj (Option.some.inj ran)
      exact .inl ⟨by decide, rfl⟩
    all_goals
      obtain ⟨engine, -, ran⟩ := Option.bind_eq_some_iff.mp ran
      obtain ⟨map, there, ran⟩ := Option.bind_eq_some_iff.mp ran
      obtain ⟨rfl, rfl⟩ := Prod.mk.inj (Option.some.inj ran)
      refine .inr ⟨rfl, fun free => ⟨engine, ?_⟩⟩
      have places := findDs_of_map there
      rw [places] at free ⊢
      funext i
      simp [PMLib.findDs, free]

theorem findDs_closeDs (ran : lib.closeDs id = some (lib', reply)) :
    lib'.findDs = Function.update lib.findDs id none := by
  obtain ⟨map, there, eq⟩ := Option.map_eq_some_iff.mp ran
  have places := findDs_of_map there
  rw [places]
  split at eq
  · obtain ⟨rfl, -⟩ := Prod.mk.inj eq
    rfl
  · rename_i absent
    obtain ⟨rfl, -⟩ := Prod.mk.inj eq
    have free : map id = none := by simpa using absent
    rw [places, ← free, Function.update_eq_self]

end Places

/-! ## Orderly requests -/

/-- The ledger and the map agree: each structure is in its place, no two have one place, and every place
that is taken is in the ledger. -/
structure Realm.Kept (w : Realm) : Prop where
  held : ∀ d n, (d, n) ∈ w.ledger → ∃ engine, w.lib.findDs (lowByte d) = some ⟨n, engine⟩
  apart : ∀ x ∈ w.ledger, ∀ y ∈ w.ledger, lowByte x.1 = lowByte y.1 → x = y
  known : ∀ i slot, w.lib.findDs i = some slot → ∃ x ∈ w.ledger, lowByte x.1 = i

namespace Realm.Kept

variable {undoLog : Bool} {w w' : Realm} {a : Arrival}

theorem start (npartitions : Nat) : (Realm.start npartitions).Kept := ⟨nofun, nofun, nofun⟩

variable {i : Nat}

/-- A place that the ledger does not know is free. -/
theorem free (kept : w.Kept) (unknown : ∀ x ∈ w.ledger, lowByte x.1 ≠ i) :
    w.lib.findDs i = none := by
  cases there : w.lib.findDs i with
  | none => rfl
  | some slot =>
    obtain ⟨x, entry, same⟩ := kept.known i slot there
    exact absurd same (unknown x entry)

variable {engine : Engine} {lib : PMLib}

/-- An engine is executed in its place. -/
theorem replaced (kept : w.Kept) {slot : Slot} (there : w.lib.findDs i = some slot)
    (places : lib.findDs = Function.update w.lib.findDs i (some ⟨slot.serial, engine⟩)) :
    Realm.Kept ⟨lib, w.ledger⟩ where
  held d n entry := by
    obtain ⟨old, held⟩ := kept.held d n entry
    change ∃ engine, lib.findDs (lowByte d) = _
    rw [places]
    by_cases here : lowByte d = i
    · rw [here, there] at held
      cases Option.some.inj held
      exact ⟨engine, by rw [here, Function.update_self]⟩
    · exact ⟨old, by rw [Function.update_of_ne here, held]⟩
  apart := kept.apart
  known j slot' held := by
    change lib.findDs j = _ at held
    rw [places] at held
    by_cases here : j = i
    · rw [here]
      exact kept.known i slot there
    · rw [Function.update_of_ne here] at held
      exact kept.known j slot' held

variable {id : BitVec 16} {n : Nat}

/-- A structure is created in a free place. -/
theorem created (kept : w.Kept) (unknown : ∀ x ∈ w.ledger, lowByte x.1 ≠ lowByte id)
    (places : lib.findDs = Function.update w.lib.findDs (lowByte id) (some ⟨n, engine⟩)) :
    Realm.Kept ⟨lib, (id, n) :: w.ledger.filter (·.1 ≠ id)⟩ where
  held d m entry := by
    change ∃ engine, lib.findDs (lowByte d) = _
    rw [places]
    rcases List.mem_cons.mp entry with new | old
    · obtain ⟨rfl, rfl⟩ := Prod.mk.inj new
      exact ⟨engine, Function.update_self ..⟩
    · have old := List.mem_of_mem_filter old
      rw [Function.update_of_ne (unknown _ old)]
      exact kept.held d m old
  apart x first y second same := by
    rcases List.mem_cons.mp first with rfl | first
    · rcases List.mem_cons.mp second with rfl | second
      · rfl
      · exact absurd same.symm (unknown y (List.mem_of_mem_filter second))
    · rcases List.mem_cons.mp second with rfl | second
      · exact absurd same (unknown x (List.mem_of_mem_filter first))
      · exact kept.apart x (List.mem_of_mem_filter first) y (List.mem_of_mem_filter second) same
  known i slot held := by
    change lib.findDs i = _ at held
    rw [places] at held
    by_cases here : i = lowByte id
    · exact ⟨_, List.mem_cons_self, here.symm⟩
    · rw [Function.update_of_ne here] at held
      obtain ⟨x, entry, same⟩ := kept.known i slot held
      refine ⟨x, List.mem_cons_of_mem _ (List.mem_filter.mpr ⟨entry, ?_⟩), same⟩
      rw [decide_eq_true_eq]
      rintro rfl
      exact unknown x entry rfl

/-- The structure of an id is closed. -/
theorem closed (kept : w.Kept) (own : ∀ x ∈ w.ledger, lowByte x.1 = lowByte id → x.1 = id)
    (places : lib.findDs = Function.update w.lib.findDs (lowByte id) none) :
    Realm.Kept ⟨lib, w.ledger.filter (·.1 ≠ id)⟩ where
  held d n entry := by
    obtain ⟨old, other⟩ := List.mem_filter.mp entry
    change ∃ engine, lib.findDs (lowByte d) = _
    rw [places, Function.update_of_ne fun same => of_decide_eq_true other (own _ old same)]
    exact kept.held d n old
  apart x first y second :=
    kept.apart x (List.mem_of_mem_filter first) y (List.mem_of_mem_filter second)
  known i slot held := by
    change lib.findDs i = _ at held
    rw [places] at held
    by_cases here : i = lowByte id
    · rw [here, Function.update_self] at held
      cases held
    · rw [Function.update_of_ne here] at held
      obtain ⟨x, entry, same⟩ := kept.known i slot held
      refine ⟨x, List.mem_filter.mpr ⟨entry, ?_⟩, same⟩
      rw [decide_eq_true_eq]
      rintro rfl
      exact here same.symm

/-- **One orderly request** keeps the ledger and the map in agreement. -/
theorem step (kept : w.Kept) (orderly : w.Orderly a) (taken : w.step undoLog a = some w') : w'.Kept := by
  obtain ⟨⟨lib, reply⟩, ran, rfl⟩ := Option.map_eq_some_iff.mp taken
  obtain ⟨call, threadId, files⟩ := a
  cases call with
  | openLib appname =>
    obtain ⟨rfl, -⟩ := Prod.mk.inj (Option.some.inj ((exec_open appname).symm.trans ran))
    have empty : w.ledger = [] := orderly
    dsimp only [Call.record]
    rw [empty]
    exact ⟨nofun, nofun, nofun⟩
  | closeLib appname =>
    obtain ⟨rfl, empty⟩ := findDs_closeLib ran
    refine ⟨nofun, nofun, fun i slot held => ?_⟩
    obtain ⟨x, -, same⟩ := kept.known i slot held
    have small : i < 2 ^ 16 := by
      rw [← same, lowByte]
      omega
    change w.lib.findDs i = _ at held
    rw [empty i small] at held
    cases held
  | topk =>
    obtain ⟨reply', -, eq⟩ := Option.map_eq_some_iff.mp (exec_topk.symm.trans ran)
    obtain ⟨rfl, -⟩ := Prod.mk.inj eq
    exact kept
  | on c ask =>
    by_cases ofData : ask.ofData = true
    · obtain ⟨slot, engine, there, places⟩ := findDs_ofData ofData ran
      have same : Call.record w.lib.made reply w.ledger (.on c ask) = w.ledger := by
        cases ask <;> simp [Ask.ofData] at ofData <;> rfl
      dsimp only
      rw [same]
      exact kept.replaced there places
    · cases ask <;> simp only [Ask.ofData, not_true_eq_false] at ofData
      case create =>
        rcases findDs_createDs (exec_create.symm.trans ran) with ⟨failed, rfl⟩ | ⟨done, places⟩
        · dsimp only [Call.record]
          rw [if_neg failed]
          exact kept
        · obtain ⟨engine, places⟩ := places (kept.free orderly)
          dsimp only [Call.record]
          rw [if_pos done]
          exact kept.created orderly places
      case close => exact kept.closed orderly (findDs_closeDs (exec_close.symm.trans ran))
      case remove =>
        obtain ⟨rfl, -⟩ := Prod.mk.inj (Option.some.inj (exec_remove.symm.trans ran))
        exact kept

/-- An orderly request for another id leaves a structure alone. -/
theorem unchanged (kept : w.Kept) {d : BitVec 16} (entry : (d, n) ∈ w.ledger)
    (orderly : w.Orderly a) (other : a.call.target ≠ some d) (taken : w.step undoLog a = some w') :
    w'.lib.findDs (lowByte d) = w.lib.findDs (lowByte d) := by
  obtain ⟨⟨lib, reply⟩, ran, rfl⟩ := Option.map_eq_some_iff.mp taken
  obtain ⟨call, threadId, files⟩ := a
  cases call with
  | openLib appname =>
    have empty : w.ledger = [] := orderly
    rw [empty] at entry
    cases entry
  | closeLib appname =>
    obtain ⟨rfl, -⟩ := findDs_closeLib ran
    rfl
  | topk =>
    obtain ⟨reply', -, eq⟩ := Option.map_eq_some_iff.mp (exec_topk.symm.trans ran)
    obtain ⟨rfl, -⟩ := Prod.mk.inj eq
    rfl
  | on c ask =>
    have different : c.id ≠ d := fun same => other (congrArg some same)
    by_cases ofData : ask.ofData = true
    · obtain ⟨slot, engine, there, places⟩ := findDs_ofData ofData ran
      have own : lowByte d = lowByte c.id → d = c.id := by
        cases ask <;> simp only [Ask.ofData, Bool.false_eq_true] at ofData <;> exact orderly _ entry
      exact (congrFun places _).trans (Function.update_of_ne (fun same => different (own same).symm) ..)
    · cases ask <;> simp only [Ask.ofData, not_true_eq_false] at ofData
      case create =>
        rcases findDs_createDs (exec_create.symm.trans ran) with ⟨failed, rfl⟩ | ⟨done, places⟩
        · rfl
        · obtain ⟨engine, places⟩ := places (kept.free orderly)
          exact (congrFun places _).trans (Function.update_of_ne (orderly _ entry) ..)
      case close =>
        have places := findDs_closeDs (exec_close.symm.trans ran)
        refine (congrFun places _).trans (Function.update_of_ne (fun same => ?_) ..)
        exact different (orderly _ entry same).symm
      case remove =>
        obtain ⟨rfl, -⟩ := Prod.mk.inj (Option.some.inj (exec_remove.symm.trans ran))
        rfl

end Realm.Kept

/-- **Structures stay addressable and isolated.**  In every run whose requests are orderly, a request for
the data of an id in the ledger is executed by the engine that was created for the id, whatever client
built it; and no orderly request for another id, or for none, changes that engine. -/
theorem isolated {undoLog : Bool} {npartitions : Nat} {w : Realm}
    (run : Path (Realm.step undoLog) Realm.Orderly (Realm.start npartitions) w) {d : BitVec 16} {n : Nat}
    (entry : (d, n) ∈ w.ledger) :
    (∃ engine, w.lib.findDs (lowByte d) = some ⟨n, engine⟩ ∧
      ∀ (type : DsType) (ask : Ask) (files : Files) (threadId : Nat), ask.ofData = true →
        (w.lib.exec undoLog files threadId (Client.request ⟨type, d⟩ ask)).map (fun r => (r.1.findDs (lowByte d), r.2)) =
          (engine.exec undoLog threadId (OpName.ofCode (opId (Client.request ⟨type, d⟩ ask).word))
            (Client.request ⟨type, d⟩ ask)).map fun r => (some ⟨n, r.1⟩, .rpc r.2)) ∧
      ∀ a w', w.Orderly a → a.call.target ≠ some d → w.step undoLog a = some w' →
        w'.lib.findDs (lowByte d) = w.lib.findDs (lowByte d) := by
  have kept : w.Kept := run.keeps (.start npartitions) fun _ _ _ kept orderly taken => kept.step orderly taken
  obtain ⟨engine, held⟩ := kept.held d n entry
  refine ⟨⟨engine, held, fun type ask files threadId ofData => ?_⟩, fun a w' orderly other taken =>
    kept.unchanged entry orderly other taken⟩
  rw [exec_ofData ofData]
  obtain ⟨map, there, held⟩ := Option.bind_eq_some_iff.mp held
  rw [there, Option.bind_some, held, PMLib.onSlot, Option.map_map, Option.map_map]
  congr 1
  funext r
  simp [PMLib.findDs]

/-! ## Runs on fixed requests -/

/-- A request that finds no file and succeeds in removing one. -/
def Call.plain (call : Call) : Arrival := ⟨call, 0, .empty⟩

def clientOf (id : BitVec 16) : Client := ⟨.concurrentHashmap, id⟩

/-- What a `get` is answered. -/
def Realm.answersGet (w : Realm) (id : BitVec 16) (key : BitVec 64) : Option Reply :=
  (w.lib.exec true .empty 0 ((clientOf id).request (.get key))).map Prod.snd

theorem isolated_two : ∃ w, Path (Realm.step true) Realm.Orderly (Realm.start 4) w ∧
    w.ledger = [(2, 1), (1, 0)] ∧ (∃ engine, w.lib.findDs 1 = some ⟨0, engine⟩) ∧
      ∀ a w', w.Orderly a → a.call.target ≠ some 1 → w.step true a = some w' →
        w'.lib.findDs 1 = w.lib.findDs 1 := by
  have ran : ∃ w ∈ exec (Realm.step true) Realm.Orderly (Realm.start 4)
      [Call.plain (.openLib []), Call.plain (.on (clientOf 1) .create), Call.plain (.on (clientOf 2) .create),
        Call.plain (.on (clientOf 2) (.put 7 [1]))], w.ledger = [(2, 1), (1, 0)] := by decide +kernel
  obtain ⟨w, run, ledger⟩ := Path.exists_of_exec ran
  obtain ⟨⟨engine, held, -⟩, others⟩ := isolated run (d := 1) (n := 0) (by rw [ledger]; decide)
  exact ⟨w, run, ledger, ⟨engine, held⟩, others⟩

/-- **Requests go astray.**  A `put` for id 257 is seen by a `get` for id 1; `open` leaves no engine for id
1, which is in the ledger; and after `remove`, a second `create` for id 1 is answered `OK`, but it is the
first engine that is in the map. -/
theorem astray :
    (∃ w, Path (Realm.step true) anyStep (Realm.start 4) w ∧ w.ledger = [(1, 0)] ∧
      w.answersGet 1 7 = some (.rpc (answer .notFound)) ∧
      ((w.step true (Call.plain (.on (clientOf 257) (.put 7 [65])))).bind fun w' => w'.answersGet 1 7) =
        some (.rpc (respond .ok 0 (printed [65])))) ∧
    (∃ w, Path (Realm.step true) anyStep (Realm.start 4) w ∧ w.ledger = [(1, 0)] ∧
      (w.lib.findDs 1).isNone = true) ∧
    ∃ w, Path (Realm.step true) anyStep (Realm.start 4) w ∧ w.ledger = [(1, 1)] ∧
      (w.lib.findDs 1).map Slot.serial = some 0 := by
  refine ⟨?_, ?_, ?_⟩
  · refine Path.exists_of_exec (l := [Call.plain (.openLib []), Call.plain (.on (clientOf 1) .create)]) ?_
    decide +kernel
  · refine Path.exists_of_exec (l := [Call.plain (.openLib []), Call.plain (.on (clientOf 1) .create),
      Call.plain (.openLib [])]) ?_
    decide +kernel
  · refine Path.exists_of_exec (l := [Call.plain (.openLib []), Call.plain (.on (clientOf 1) .create),
      Call.plain (.on (clientOf 1) .remove), Call.plain (.on (clientOf 1) .create)]) ?_
    decide +kernel

end Cyclone.Pmemds
