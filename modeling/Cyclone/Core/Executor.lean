/-
# Core.Executor — from the log to the executor cores

The build without `__COMMUTE`.  An RPC is handed to its core when its log entry is appended, before
anyone knows whether the entry will be committed; the verdict travels through the `rep` field of
the packet that holds it.  A core takes its ring in order and waits at an update until the
verdict is there.

`Exec` is the memory the raft thread and the executors share: the packets with their
`wal_entry_t`, the packet of each log position (`ety->pkt`), and the rings.  `play` is what
a callback of the raft library does to it and `step` what one turn of an executor does.  `Replica`
puts them under a raft server: the callbacks of a call are played one by one, and executors may
take turns in between.

This build has one quorum and the RPCs are single-core, so `core_mask` is the number of its bit.
-/
import Cyclone.Raft.Journal
import Mathlib.Data.List.Sort

namespace Cyclone.Core

open Cyclone.Raft
open Cyclone.Theory (Path exec anyStep)

set_option autoImplicit false

/-- The values of `rpc_t::code`. -/
inductive RpcCode where
  | stable
  | req
  | kicker
  | nodeAddFinal
  | nodeAdd
  | nodeDel
  | other (code : Int)
deriving DecidableEq, Repr

/-- `rpc_t` with its payload; `core` is the bit of `core_mask`. -/
structure Rpc (π : Type) where
  code : RpcCode
  readOnly : Bool
  core : Nat
  quorumTerm : Int
  payload : π
deriving DecidableEq, Repr

/-- `REP_FAILED`, `REP_UNKNOWN`, `REP_SUCCESS`. -/
inductive Rep where
  | failed
  | unknown
  | success
deriving DecidableEq, Repr

/-- `wal_entry_t`. -/
structure Wal where
  rep : Rep
  term : Int
  idx : Int
  leader : Bool
deriving DecidableEq, Repr

/-- What a ring of `to_cores` carries: the packet, by its number, and the RPC in it. -/
structure Item (π : Type) where
  pkt : Nat
  rpc : Rpc π
deriving DecidableEq, Repr

/-- An executor: its ring, its `core_status_t`, and the updates it ran, each with the log index its
cookie carried. -/
structure Executor (π : Type) where
  ring : List (Item π)
  ran : List (Int × Rpc π)
  execTerm : Int
  checkpointIdx : Int

/-- The memory shared by the raft thread and the executors. -/
structure Exec (π : Type) where
  wals : List Wal
  slots : List Nat
  cores : Nat → Executor π
  snapshot : Int

variable {ι π : Type}

/-- A log entry whose packet holds these RPCs. -/
abbrev LogEntry (ι π : Type) : Type := Entry ι (List (Rpc π))

/-- The RPCs `__raft_logentry_offer_batch` hands out: none of a completed node addition. -/
def issues (e : LogEntry ι π) : List (Rpc π) :=
  match e.type with
  | .addNode _ => []
  | _ => e.data

/-- What `executor_st::exec` runs through `exec_rpc_internal`. -/
def Rpc.isUpdate (r : Rpc π) : Bool :=
  match r.code with
  | .kicker => false
  | .stable => false
  | .nodeAdd => false
  | .nodeDel => false
  | _ => !r.readOnly

namespace Exec

/-- Rings and memory as `dispatcher_start` leaves them; the snapshot is even until it is published. -/
def init : Exec π where
  wals := []
  slots := []
  cores := fun _ => { ring := [], ran := [], execTerm := 0, checkpointIdx := -1 }
  snapshot := -2

/-- A new packet whose RPCs `rs` go to their rings. -/
def enqueue (x : Exec π) (wal : Wal) (rs : List (Rpc π)) : Exec π :=
  { x with
    wals := x.wals ++ [wal]
    cores := fun c =>
      { x.cores c with
        ring := (x.cores c).ring ++ (rs.filter (·.core = c)).map fun r => ⟨x.wals.length, r⟩ } }

/-- Writes the verdict of a packet. -/
def setRep (x : Exec π) (pkt : Nat) (rep : Rep) : Exec π :=
  { x with wals := x.wals.modify pkt fun wal => { wal with rep := rep } }

/-- The `wal_entry_t` of an appended entry. -/
def freshWal (isLeader : Bool) (e : LogEntry ι π) (idx : Int) : Wal :=
  ⟨.unknown, e.term, idx, isLeader⟩

/-- `__raft_logentry_offer_batch` for one entry. -/
def logentryOffer (x : Exec π) (isLeader : Bool) (e : LogEntry ι π) (idx : Int) : Exec π :=
  { x.enqueue (freshWal isLeader e idx) (issues e) with slots := x.slots ++ [x.wals.length] }

/-- `__raft_logentry_pop`. -/
def logentryPop (x : Exec π) (idx : Int) : Exec π :=
  match x.slots[idx.toNat]? with
  | some pkt => { x.setRep pkt .failed with slots := x.slots.take idx.toNat }
  | none => x

/-- `__applylog`, the part the executors see. -/
def applylog (x : Exec π) (idx : Int) : Exec π :=
  match x.slots[idx.toNat]? with
  | some pkt => x.setRep pkt .success
  | none => x

/-- What a callback of the raft library does to the shared memory. -/
def play (x : Exec π) (isLeader : Bool) : Callback ι (List (Rpc π)) → Exec π
  | .logOffer e idx => x.logentryOffer isLeader e idx
  | .logPop _ idx => x.logentryPop idx
  | .applylog _ idx => x.applylog idx
  | _ => x

/-- `publish_snapshot`. -/
def publishSnapshot (x : Exec π) (term : Int) (isLeader : Bool) : Exec π :=
  { x with snapshot := 2 * term + if isLeader then 1 else 0 }

/-- The replica took itself for the leader when it last published. -/
def leads (x : Exec π) : Bool := x.snapshot % 2 = 1

def raiseTerm (core : Executor π) (wal : Wal) : Executor π :=
  if wal.rep = .success ∧ core.execTerm < wal.term then { core with execTerm := wal.term } else core

/-- `executor_st::exec` on the next item of a ring, and whether it sent `RPC_REP_OK`; nothing while
the executor waits for an item or for its verdict. -/
def step (x : Exec π) (c : Nat) : Option (Exec π × Bool) :=
  match (x.cores c).ring with
  | [] => none
  | item :: rest =>
    match x.wals[item.pkt]? with
    | none => none
    | some wal =>
      let core := { x.cores c with ring := rest }
      let put (core : Executor π) : Exec π := { x with cores := Function.update x.cores c core }
      match item.rpc.code with
      | .kicker =>
        if wal.rep = .unknown then none else some (put (raiseTerm core wal), false)
      | .stable => some (put core, true)
      | code =>
        if item.rpc.readOnly then some (put core, wal.leader && x.leads)
        else if wal.rep = .unknown then none
        else if code = .nodeDel ∨ code = .nodeAdd then
          some (put (raiseTerm core wal), wal.leader && wal.rep = .success && x.leads)
        else if wal.rep ≠ .success then some (put core, false)
        else
          some (put
            { raiseTerm core wal with
              ran := core.ran ++ [(wal.idx, item.rpc)]
              checkpointIdx := wal.idx },
            wal.leader && x.leads)

end Exec

/-! ## A replica -/

/-- A raft server over its executors; `played` of its callbacks have been played. -/
structure Replica (ι π : Type) where
  srv : Server ι (List (Rpc π))
  exec : Exec π
  played : Nat

/-- What can happen on a replica: a call on the raft server, its next callback, the publication of
its term and role, a turn of an executor, or the acceptance of a packet that bypasses the log (its
`wal_entry_t` was never written and holds anything). -/
inductive Act (ι π : Type) where
  | call (env : Env (List (Rpc π))) (input : Input ι (List (Rpc π)))
  | play
  | publish
  | exec (core : Nat)
  | direct (rpc : Rpc π) (junk : Wal)

namespace Replica

variable [DecidableEq ι]

def step (w : Replica ι π) : Act ι π → Option (Replica ι π)
  | .call env input =>
    if w.played = w.srv.calls.length then
      (w.srv.step (env, input)).map fun srv => { w with srv := srv }
    else none
  | .play =>
    (w.srv.calls[w.played]?).map fun c =>
      { w with exec := w.exec.play w.srv.cycloneIsLeader c, played := w.played + 1 }
  | .publish =>
    some { w with exec := w.exec.publishSnapshot w.srv.currentTerm w.srv.cycloneIsLeader }
  | .exec core => (w.exec.step core).map fun p => { w with exec := p.1 }
  | .direct rpc junk =>
    if rpc.readOnly = true ∨ rpc.code = .stable then
      some { w with exec := w.exec.enqueue junk [rpc] }
    else none

/-- A replica as `cyclone_setup` and `dispatcher_start` leave it. -/
def boot (me : ι) (replicas : Nat) (cfg : Config) (active : List ι) : Replica ι π :=
  { srv := Server.boot me replicas cfg active, exec := .init, played := 0 }

end Replica

/-- The updates of an entry that go to a core. -/
def updatesOf (c : Nat) (p : LogEntry ι π × Int) : List (Int × Rpc π) :=
  ((issues p.1).filter fun r => r.core = c ∧ r.isUpdate = true).map fun r => (p.2, r)

/-- The updates of the applied entries that go to a core, in the order they were applied. -/
def appliedUpdates (c : Nat) (cs : List (Callback ι (List (Rpc π)))) : List (Int × Rpc π) :=
  (appliedOf cs).flatMap (updatesOf c)

/-! ## What a core takes and what it runs -/

/-- What the items of a ring are worth: an update with a good verdict is run under its index. -/
def Exec.worth (x : Exec π) (item : Item π) : Option (Int × Rpc π) :=
  (x.wals[item.pkt]?).bind fun wal =>
    if item.rpc.isUpdate = true ∧ wal.rep = .success then some (wal.idx, item.rpc) else none

/-- A turn of a core: it takes the next item, with its verdict if that matters, runs what the item
is worth, and answers an update only if it ran. -/
structure Exec.Turn (x : Exec π) (c : Nat) (y : Exec π) (sent : Bool) (item : Item π) : Prop where
  others : ∃ core, y = { x with cores := Function.update x.cores c core }
  took : (x.cores c).ring = item :: (y.cores c).ring
  ran : (y.cores c).ran = (x.cores c).ran ++ (x.worth item).toList
  verdict : ∃ wal, x.wals[item.pkt]? = some wal ∧ (item.rpc.isUpdate = true → wal.rep ≠ .unknown)
  answer : sent = true → item.rpc.isUpdate = true → (x.worth item).isSome = true

theorem Exec.raiseTerm_kept (core : Executor π) (wal : Wal) :
    (Exec.raiseTerm core wal).ring = core.ring ∧ (Exec.raiseTerm core wal).ran = core.ran := by
  unfold Exec.raiseTerm
  split <;> exact ⟨rfl, rfl⟩

theorem Rpc.isUpdate_iff (r : Rpc π) :
    r.isUpdate = true ↔ r.readOnly = false ∧ r.code ≠ .kicker ∧ r.code ≠ .stable ∧
      r.code ≠ .nodeAdd ∧ r.code ≠ .nodeDel := by
  unfold Rpc.isUpdate
  split <;> simp_all

variable {x : Exec π} {c : Nat} {item : Item π} {sent : Bool}

/-- A core that puts `core` back after taking an item that is not worth anything. -/
theorem Exec.turn_idle {rest : List (Item π)} {wal : Wal} (ring : (x.cores c).ring = item :: rest)
    (found : x.wals[item.pkt]? = some wal) (core : Executor π) (took : core.ring = rest)
    (ran : core.ran = (x.cores c).ran)
    (idle : item.rpc.isUpdate = true → wal.rep = .failed ∧ sent = false) :
    x.Turn c { x with cores := Function.update x.cores c core } sent item := by
  have worth : x.worth item = none := by
    rw [Exec.worth, found]
    refine if_neg fun both => ?_
    rw [(idle both.1).1] at both
    cases both.2
  refine ⟨⟨core, rfl⟩, ?_, ?_, ⟨wal, found, fun update => ?_⟩, fun reply update => ?_⟩
  · simp only [ring, Function.update_self, took]
  · simp only [Function.update_self, ran, worth, Option.toList_none, List.append_nil]
  · rw [(idle update).1]
    decide
  · rw [(idle update).2] at reply
    cases reply

theorem Exec.step_turn {y : Exec π} (taken : x.step c = some (y, sent)) :
    ∃ item, x.Turn c y sent item := by
  unfold Exec.step at taken
  split at taken
  · cases taken
  · rename_i item rest ring
    split at taken
    · cases taken
    · rename_i wal found
      refine ⟨item, ?_⟩
      have updates := item.rpc.isUpdate_iff
      split at taken
      · rename_i kicker
        split at taken
        · cases taken
        · cases taken
          refine turn_idle ring found (raiseTerm { x.cores c with ring := rest } wal)
            (raiseTerm_kept _ _).1 (raiseTerm_kept _ _).2 fun update => ?_
          exact absurd kicker (updates.mp update).2.1
      · rename_i stable
        cases taken
        refine turn_idle ring found { x.cores c with ring := rest } rfl rfl fun update => ?_
        exact absurd stable (updates.mp update).2.2.1
      · rename_i code notKicker notStable
        split at taken
        · rename_i readOnly
          cases taken
          refine turn_idle ring found { x.cores c with ring := rest } rfl rfl fun update => ?_
          exact absurd readOnly (by rw [(updates.mp update).1]; decide)
        · rename_i writes
          split at taken
          · cases taken
          · rename_i known
            split at taken
            · rename_i nodes
              cases taken
              refine turn_idle ring found (raiseTerm { x.cores c with ring := rest } wal)
                (raiseTerm_kept _ _).1 (raiseTerm_kept _ _).2 fun update => ?_
              obtain ⟨-, -, -, notAdd, notDel⟩ := updates.mp update
              rcases nodes with del | add
              · exact absurd del notDel
              · exact absurd add notAdd
            · rename_i others
              split at taken
              · rename_i bad
                cases taken
                refine turn_idle ring found { x.cores c with ring := rest } rfl rfl fun _ => ⟨?_, rfl⟩
                cases verdict : wal.rep with
                | failed => rfl
                | unknown => exact absurd verdict known
                | success => exact absurd verdict bad
              · rename_i good
                have update : item.rpc.isUpdate = true :=
                  updates.mpr ⟨Bool.eq_false_iff.mpr writes, notKicker, notStable,
                    fun add => others (.inr add), fun del => others (.inl del)⟩
                have worth : x.worth item = some (wal.idx, item.rpc) := by
                  rw [Exec.worth, found]
                  exact if_pos ⟨update, not_not.mp good⟩
                cases taken
                refine ⟨⟨_, rfl⟩, ?_, ?_, ⟨wal, found, fun _ => known⟩, fun _ _ => by rw [worth]; rfl⟩
                · simp only [ring, Function.update_self, raiseTerm_kept]
                · simp only [Function.update_self, worth, Option.toList_some]

/-! ## The rings and the log -/

variable {A : Type}

/-- A list read through its indices, where only those of `S` contribute. -/
theorem flatMap_zipIdx_of_support {B : Type} (l : List A) (f : A × Nat → List B) {S : List Nat}
    (sorted : S.Pairwise (· < ·)) (inside : ∀ n ∈ S, n < l.length)
    (idle : ∀ n a, n ∉ S → l[n]? = some a → f (a, n) = []) :
    l.zipIdx.flatMap f = S.flatMap fun n => (l[n]?).toList.flatMap fun a => f (a, n) := by
  have ranged (l : List A) : l.zipIdx.flatMap f =
      (List.range l.length).flatMap fun n => (l[n]?).toList.flatMap fun a => f (a, n) := by
    induction l using List.reverseRecOn with
    | nil => rfl
    | append_singleton l a ih =>
      rw [List.zipIdx_append, List.flatMap_append, ih, List.length_append, List.length_singleton,
        List.range_succ, List.flatMap_append]
      congr 1
      · refine List.flatMap_congr fun n member => ?_
        rw [List.getElem?_append_left (List.mem_range.mp member)]
      · simp
  have filtered : (List.range l.length).filter (· ∈ S) = S := by
    have ordered := List.Pairwise.filter (· ∈ S) (List.pairwise_lt_range (n := l.length))
    refine List.Perm.eq_of_pairwise (fun a b _ _ ab ba => absurd ab (Nat.lt_asymm ba)) ordered sorted ?_
    refine (List.perm_ext_iff_of_nodup (List.nodup_range.filter _) sorted.nodup).mpr fun n => ?_
    simpa using inside n
  have supported (m : List Nat) (g : Nat → List B) (idle : ∀ n ∈ m, n ∉ S → g n = []) :
      m.flatMap g = (m.filter (· ∈ S)).flatMap g := by
    induction m with
    | nil => rfl
    | cons n m ih =>
      have rest := ih fun k later => idle k (List.mem_cons_of_mem n later)
      by_cases member : n ∈ S
      · simp [member, rest]
      · simp [member, rest, idle n List.mem_cons_self member]
  rw [ranged, supported, filtered]
  intro n _ outside
  cases found : l[n]? with
  | none => rfl
  | some a => simp [idle n a outside found]

/-- Two splits of one list, where the second part of the first has nothing of the second's first. -/
theorem prefix_of_append_eq {l r u v : List A} (same : l ++ r = u ++ v) (apart : ∀ a ∈ r, a ∉ u) :
    u <+: l := by
  rcases List.append_eq_append_iff.mp same with ⟨mid, rfl, rfl⟩ | ⟨mid, rfl, rfl⟩
  · cases mid with
    | nil => rw [List.append_nil]
    | cons a mid => exact (apart a (by simp) (by simp)).elim
  · exact List.prefix_append _ _

theorem getElem?_append_of_some {l l' : List A} {i : Nat} {a : A} (found : l[i]? = some a) :
    (l ++ l')[i]? = some a := by
  obtain ⟨below, -⟩ := List.getElem?_eq_some_iff.mp found
  rw [List.getElem?_append_left below, found]

/-- What was handed to a core, when `given` are the RPCs handed out with each packet. -/
def issuedTo (c : Nat) (given : List (List (Rpc π))) : List (Item π) :=
  given.zipIdx.flatMap fun p => (p.1.filter (·.core = c)).map fun r => ⟨p.2, r⟩

theorem issuedTo_snoc (c : Nat) (given : List (List (Rpc π))) (rs : List (Rpc π)) :
    issuedTo c (given ++ [rs]) =
      issuedTo c given ++ (rs.filter (·.core = c)).map fun r => ⟨given.length, r⟩ := by
  simp [issuedTo, List.zipIdx_append]

theorem mem_issuedTo {given : List (List (Rpc π))} :
    item ∈ issuedTo c given ↔
      item.rpc.core = c ∧ ∃ rs, given[item.pkt]? = some rs ∧ item.rpc ∈ rs := by
  obtain ⟨n, r⟩ := item
  simp only [issuedTo, List.mem_flatMap, List.mem_map, List.mem_filter, decide_eq_true_eq,
    Prod.exists, List.mem_zipIdx_iff_getElem?, Item.mk.injEq]
  constructor
  · rintro ⟨rs, m, held, q, ⟨member, core⟩, rfl, rfl⟩
    exact ⟨core, rs, held, member⟩
  · rintro ⟨core, rs, held, member⟩
    exact ⟨rs, n, held, r, ⟨member, core⟩, rfl, rfl⟩

theorem issuedTo_sorted (c : Nat) (given : List (List (Rpc π))) :
    (issuedTo c given).Pairwise fun a b => a.pkt ≤ b.pkt := by
  induction given using List.reverseRecOn with
  | nil => exact .nil
  | append_singleton given rs ih =>
    rw [issuedTo_snoc]
    refine List.pairwise_append.mpr ⟨ih, ?_, ?_⟩
    · refine List.pairwise_map.mpr (List.pairwise_of_forall fun _ _ => ?_)
      exact Nat.le_refl _
    · intro old member new added
      obtain ⟨-, rs', held, -⟩ := mem_issuedTo.mp member
      obtain ⟨r, -, rfl⟩ := List.mem_map.mp added
      exact Nat.le_of_lt (List.getElem?_eq_some_iff.mp held).1

/-! ## The packets of the log -/

section Filed

variable {α : Type}

/-- The packets of the log positions: later positions have newer ones, and the verdict of a packet
says whether its entry was applied. -/
structure Filed (j : Journal ι α) (wals : List Wal) (slots : List Nat) : Prop where
  positions : slots.length = j.entries.length
  newer : slots.Pairwise (· < ·)
  known : ∀ n ∈ slots, n < wals.length
  logged : ∀ {i n : Nat}, slots[i]? = some n → ∃ wal, wals[n]? = some wal ∧ wal.idx = (i : Int) ∧
    wal.rep = if i < j.applied then .success else .unknown

theorem getElem?_setRep (wals : List Wal) (n m : Nat) (rep : Rep) :
    (wals.modify n fun wal => { wal with rep := rep })[m]? =
      if n = m then (wals[m]?).map fun wal => { wal with rep := rep } else wals[m]? := by
  rw [List.getElem?_modify]
  split <;> simp

namespace Filed

variable {j : Journal ι α} {wals : List Wal} {slots : List Nat} {e e' : Entry ι α} {i n : Nat}

theorem empty : Filed (.empty : Journal ι α) [] [] :=
  ⟨rfl, .nil, by simp, by simp⟩

variable (filed : Filed j wals slots)

include filed

theorem slot_ne {i' n' : Nat} (apart : i ≠ i') (slot : slots[i]? = some n)
    (slot' : slots[i']? = some n') : n ≠ n' := by
  rintro rfl
  obtain ⟨bound, -⟩ := List.getElem?_eq_some_iff.mp slot
  exact apart ((List.getElem?_inj bound filed.newer.nodup).mp (slot.trans slot'.symm))

/-- The newest packet of the log, or the next one to apply, has no verdict yet. -/
theorem waiting (entry : j.entries[i]? = some e) (unapplied : j.applied ≤ i) :
    ∃ n wal, slots[i]? = some n ∧ wals[n]? = some wal ∧ wal.idx = i ∧ wal.rep = .unknown := by
  obtain ⟨bound, -⟩ := List.getElem?_eq_some_iff.mp entry
  have slot : slots[i]? = some (slots.get ⟨i, filed.positions ▸ bound⟩) :=
    List.getElem?_eq_getElem _
  obtain ⟨wal, found, idx, rep⟩ := filed.logged slot
  rw [if_neg (Nat.not_lt.mpr unapplied)] at rep
  exact ⟨_, wal, slot, found, idx, rep⟩

/-- A packet that bypasses the log. -/
theorem append (wal : Wal) : Filed j (wals ++ [wal]) slots where
  positions := filed.positions
  newer := filed.newer
  known := fun n member => by
    rw [List.length_append]
    exact Nat.lt_add_right _ (filed.known n member)
  logged := fun slot => by
    obtain ⟨old, found, rest⟩ := filed.logged slot
    exact ⟨old, getElem?_append_of_some found, rest⟩

/-- A position of the longer log is an old one or the new entry's. -/
theorem places (slot : (slots ++ [wals.length])[i]? = some n)
    (entry : (j.entries ++ [e])[i]? = some e') :
    (slots[i]? = some n ∧ j.entries[i]? = some e') ∨
      (i = j.entries.length ∧ n = wals.length ∧ e' = e) := by
  by_cases old : i < j.entries.length
  · rw [List.getElem?_append_left (filed.positions ▸ old)] at slot
    rw [List.getElem?_append_left old] at entry
    exact Or.inl ⟨slot, entry⟩
  · obtain ⟨bound, -⟩ := List.getElem?_eq_some_iff.mp entry
    rw [List.length_append, List.length_singleton] at bound
    obtain rfl : i = j.entries.length := by omega
    rw [List.getElem?_concat_length] at entry
    rw [← filed.positions, List.getElem?_concat_length] at slot
    cases entry
    cases slot
    exact Or.inr ⟨rfl, rfl, rfl⟩

theorem offer (inside : j.applied ≤ j.entries.length) (e : Entry ι α) {wal : Wal}
    (idx : wal.idx = j.entries.length) (rep : wal.rep = .unknown) :
    Filed { j with entries := j.entries ++ [e] } (wals ++ [wal]) (slots ++ [wals.length]) where
  positions := by simp [filed.positions]
  newer := by
    refine List.pairwise_append.mpr ⟨filed.newer, List.pairwise_singleton _ _, ?_⟩
    intro n member m newest
    cases List.mem_singleton.mp newest
    exact filed.known n member
  known := fun n member => by
    rcases List.mem_append.mp member with old | newest
    · exact (filed.append wal).known n old
    · cases List.mem_singleton.mp newest
      simp
  logged := fun {i n} slot => by
    have bound := (List.getElem?_eq_some_iff.mp slot).1
    rw [List.length_append, filed.positions] at bound
    have entry : (j.entries ++ [e])[i]? = some ((j.entries ++ [e]).get ⟨i, by simpa using bound⟩) :=
      List.getElem?_eq_getElem _
    rcases filed.places slot entry with ⟨slot, -⟩ | ⟨rfl, rfl, -⟩
    · exact (filed.append wal).logged slot
    · refine ⟨wal, List.getElem?_concat_length, idx, rep.trans ?_⟩
      rw [if_neg (Nat.not_lt.mpr inside)]

omit filed in
theorem pop {kept : List (Entry ι α)} {front applied : Nat}
    (filed : Filed ⟨kept ++ [e], front, applied⟩ wals slots) (slot : slots[kept.length]? = some n) :
    Filed ⟨kept, front, applied⟩ (wals.modify n fun wal => { wal with rep := .failed })
      (slots.take kept.length) where
  positions := by simp [filed.positions]
  newer := filed.newer.sublist (List.take_sublist _ _)
  known := fun m member => by simpa using filed.known m (List.mem_of_mem_take member)
  logged := fun {i m} slot' => by
    have bound := (List.getElem?_eq_some_iff.mp slot').1
    rw [List.length_take] at bound
    rw [List.getElem?_take_of_lt (by omega)] at slot'
    obtain ⟨wal, found, rest⟩ := filed.logged slot'
    refine ⟨wal, ?_, rest⟩
    rw [getElem?_setRep, if_neg (filed.slot_ne (by omega) slot slot')]
    exact found

theorem apply (slot : slots[j.applied]? = some n) :
    Filed { j with applied := j.applied + 1 } (wals.modify n fun wal => { wal with rep := .success })
      slots where
  positions := filed.positions
  newer := filed.newer
  known := fun m member => by simpa using filed.known m member
  logged := fun {i m} slot' => by
    obtain ⟨wal, found, idx, rep⟩ := filed.logged slot'
    rw [getElem?_setRep]
    by_cases here : i = j.applied
    · subst here
      cases slot.symm.trans slot'
      rw [if_pos rfl, found]
      exact ⟨_, rfl, idx, (if_pos (Nat.lt_succ_self _)).symm⟩
    · rw [if_neg (filed.slot_ne (Ne.symm here) slot slot')]
      refine ⟨wal, found, idx, rep.trans (if_congr ?_ rfl rfl)⟩
      simp only
      omega

end Filed

end Filed

/-- The executors of a replica whose listener has journal `j`: `given` are the RPCs of each packet
and `taken` what each core took from its ring. -/
structure Serves (j : Journal ι (List (Rpc π))) (x : Exec π) (given : List (List (Rpc π)))
    (taken : Nat → List (Item π)) : Prop extends Filed j x.wals x.slots where
  packets : given.length = x.wals.length
  fifo : ∀ c, taken c ++ (x.cores c).ring = issuedTo c given
  /-- The packet of a log position holds that entry. -/
  held : ∀ {i n : Nat} {e : LogEntry ι π}, x.slots[i]? = some n → j.entries[i]? = some e →
    given[n]? = some (issues e)
  /-- A packet that left the log before it was applied will never be run. -/
  dead : ∀ n rs wal, n ∉ x.slots → given[n]? = some rs → x.wals[n]? = some wal →
    ∀ r ∈ rs, r.isUpdate = true → wal.rep = .failed
  ran : ∀ c, (x.cores c).ran = (taken c).filterMap x.worth
  settled : ∀ c, ∀ item ∈ taken c, item.rpc.isUpdate = true →
    ∃ wal, x.wals[item.pkt]? = some wal ∧ wal.rep ≠ .unknown

namespace Serves

variable {j k : Journal ι (List (Rpc π))} {x y : Exec π} {given : List (List (Rpc π))}
  {taken : Nat → List (Item π)}

theorem init : Serves (ι := ι) (π := π) .empty .init [] fun _ => [] where
  toFiled := .empty
  packets := rfl
  fifo := fun _ => rfl
  held := by simp [Exec.init]
  dead := by simp
  ran := fun _ => rfl
  settled := by simp

variable {c : Nat} {item : Item π} (serves : Serves j x given taken)
include serves

theorem exec {sent : Bool} (turn : x.Turn c y sent item) :
    Serves j y given (Function.update taken c (taken c ++ [item])) := by
  obtain ⟨core, rfl⟩ := turn.others
  have took := turn.took
  have ran := turn.ran
  simp only [Function.update_self] at took ran
  refine { serves with fifo := ?_, ran := ?_, settled := ?_ }
  · intro c'
    by_cases same : c' = c
    · subst same
      simp only [Function.update_self]
      rw [List.append_assoc, List.singleton_append, ← took]
      exact serves.fifo c'
    · simp only [Function.update_of_ne same]
      exact serves.fifo c'
  · intro c'
    by_cases same : c' = c
    · subst same
      simp only [Function.update_self]
      change _ = (taken c' ++ [item]).filterMap x.worth
      rw [ran, serves.ran, List.filterMap_append, List.filterMap_cons]
      cases x.worth item <;> rfl
    · simp only [Function.update_of_ne same]
      exact serves.ran c'
  · intro c' it member update
    by_cases same : c' = c
    · subst same
      simp only [Function.update_self] at member
      rcases List.mem_append.mp member with old | new
      · exact serves.settled c' it old update
      · cases List.mem_singleton.mp new
        obtain ⟨wal, found, known⟩ := turn.verdict
        exact ⟨wal, found, known update⟩
    · simp only [Function.update_of_ne same] at member
      exact serves.settled c' it member update

variable {n : Nat} {wal : Wal}

/-- The verdict of a packet that no core has needed yet. -/
theorem setRep_ran (found : x.wals[n]? = some wal)
    (waiting : wal.rep = .unknown) (rep : Rep) (c : Nat) :
    (x.cores c).ran = (taken c).filterMap (x.setRep n rep).worth ∧
    ∀ item ∈ taken c, item.rpc.isUpdate = true →
      ∃ wal, (x.setRep n rep).wals[item.pkt]? = some wal ∧ wal.rep ≠ .unknown := by
  have elsewhere (item : Item π) (member : item ∈ taken c) (update : item.rpc.isUpdate = true) :
      n ≠ item.pkt := by
    rintro rfl
    obtain ⟨wal', found', known⟩ := serves.settled c item member update
    rw [found] at found'
    cases found'
    exact known waiting
  constructor
  · rw [serves.ran]
    refine List.filterMap_congr fun item member => ?_
    unfold Exec.worth
    by_cases update : item.rpc.isUpdate = true
    · simp only [Exec.setRep, List.getElem?_modify, if_neg (elsewhere item member update),
        Option.map_eq_map, Option.map_id_fun', id]
    · simp [update]
  · intro item member update
    obtain ⟨wal', found', known⟩ := serves.settled c item member update
    refine ⟨wal', ?_, known⟩
    simp only [Exec.setRep, List.getElem?_modify, if_neg (elsewhere item member update), found',
      Option.map_eq_map, Option.map_id_fun', id]

/-! A new packet for the cores. -/

section Enqueue

variable (wal : Wal) (rs : List (Rpc π))

theorem enqueue_fifo (c : Nat) :
    taken c ++ ((x.enqueue wal rs).cores c).ring = issuedTo c (given ++ [rs]) := by
  rw [issuedTo_snoc, ← serves.fifo c, serves.packets, List.append_assoc]
  rfl

theorem enqueue_packets : (given ++ [rs]).length = (x.enqueue wal rs).wals.length := by
  simp [Exec.enqueue, serves.packets]

/-- What was taken does not depend on later packets. -/
theorem enqueue_ran (c : Nat) :
    ((x.enqueue wal rs).cores c).ran = (taken c).filterMap (x.enqueue wal rs).worth ∧
    ∀ item ∈ taken c, item.rpc.isUpdate = true →
      ∃ wal', (x.enqueue wal rs).wals[item.pkt]? = some wal' ∧ wal'.rep ≠ .unknown := by
  constructor
  · change (x.cores c).ran = _
    rw [serves.ran]
    refine List.filterMap_congr fun item member => ?_
    unfold Exec.worth
    by_cases update : item.rpc.isUpdate = true
    · obtain ⟨wal', found, -⟩ := serves.settled c item member update
      rw [found, Exec.enqueue, getElem?_append_of_some found]
    · simp [update]
  · intro item member update
    obtain ⟨wal', found, known⟩ := serves.settled c item member update
    exact ⟨wal', getElem?_append_of_some found, known⟩

variable {n : Nat}

theorem enqueue_dead {rs' : List (Rpc π)} {wal' : Wal} (gone : n ∉ x.slots)
    (older : n ≠ x.wals.length) (held : (given ++ [rs])[n]? = some rs')
    (found : (x.enqueue wal rs).wals[n]? = some wal') :
    ∀ r ∈ rs', r.isUpdate = true → wal'.rep = .failed := by
  have below : n < x.wals.length := by
    obtain ⟨bound, -⟩ := List.getElem?_eq_some_iff.mp found
    rw [← serves.enqueue_packets, List.length_append, serves.packets, List.length_singleton] at bound
    omega
  rw [List.getElem?_append_left (serves.packets ▸ below)] at held
  rw [Exec.enqueue, List.getElem?_append_left below] at found
  exact serves.dead n rs' wal' gone held found

end Enqueue

/-- A packet that bypasses the log. -/
theorem direct (wal : Wal) {r : Rpc π}
    (idle : r.isUpdate = false) : Serves j (x.enqueue wal [r]) (given ++ [[r]]) taken where
  toFiled := serves.append wal
  packets := serves.enqueue_packets wal [r]
  fifo := serves.enqueue_fifo wal [r]
  held := fun slot entry => getElem?_append_of_some (serves.held slot entry)
  dead := by
    intro n rs' wal' gone held found q member update
    by_cases newest : n = x.wals.length
    · rw [newest, ← serves.packets, List.getElem?_concat_length] at held
      cases held
      cases List.mem_singleton.mp member
      rw [idle] at update
      cases update
    · exact serves.enqueue_dead wal [r] gone newest held found q member update
  ran := fun c => (serves.enqueue_ran wal [r] c).1
  settled := fun c => (serves.enqueue_ran wal [r] c).2

theorem offer (isLeader : Bool) (e : LogEntry ι π) (inside : j.applied ≤ j.entries.length) :
    Serves { j with entries := j.entries ++ [e] } (x.logentryOffer isLeader e j.entries.length)
      (given ++ [issues e]) taken := by
  generalize named : Exec.freshWal isLeader e j.entries.length = wal
  have kept := serves.enqueue_ran wal (issues e)
  rw [Exec.logentryOffer, named]
  refine
    { toFiled := serves.toFiled.offer inside e (by rw [← named]; rfl) (by rw [← named]; rfl)
      packets := serves.enqueue_packets wal (issues e)
      fifo := serves.enqueue_fifo wal (issues e)
      held := ?_
      dead := ?_
      ran := fun c => (kept c).1
      settled := fun c => (kept c).2 }
  · intro i n e' slot entry
    rcases serves.places slot entry with ⟨slot, entry⟩ | ⟨rfl, rfl, rfl⟩
    · exact getElem?_append_of_some (serves.held slot entry)
    · rw [← serves.packets, List.getElem?_concat_length]
  · intro n rs' wal' gone held found
    have apart := fun member => gone (List.mem_append_left _ member)
    have older : n ≠ x.wals.length := fun newest =>
      gone (List.mem_append_right _ (List.mem_singleton.mpr newest))
    exact serves.enqueue_dead wal (issues e) apart older held found

/-! A verdict. -/

variable {i : Nat} {e : LogEntry ι π}

omit serves in
theorem pop {kept : List (LogEntry ι π)} {front applied : Nat}
    (serves : Serves ⟨kept ++ [e], front, applied⟩ x given taken)
    (unapplied : applied ≤ kept.length) :
    Serves ⟨kept, front, applied⟩ (x.logentryPop kept.length) given taken := by
  have positions : x.slots.length = kept.length + 1 := by
    rw [serves.positions, List.length_append, List.length_singleton]
  obtain ⟨n, wal, slot, found, -, rep⟩ :=
    serves.waiting (i := kept.length) List.getElem?_concat_length unapplied
  have ran := serves.setRep_ran found rep .failed
  have popped : x.logentryPop kept.length =
      { x.setRep n .failed with slots := x.slots.take kept.length } := by
    rw [Exec.logentryPop, Int.toNat_natCast, slot]
  rw [popped]
  refine
    { toFiled := serves.toFiled.pop slot
      packets := by simp [Exec.setRep, serves.packets]
      fifo := serves.fifo
      held := ?_
      dead := ?_
      ran := fun c => (ran c).1
      settled := fun c => (ran c).2 }
  · intro i m e' slot' entry
    rw [List.getElem?_take_of_lt (List.getElem?_eq_some_iff.mp entry).1] at slot'
    exact serves.held slot' (getElem?_append_of_some entry)
  · intro m rs wal' gone held found' r member update
    rw [show (x.setRep n .failed).wals[m]? = _ from getElem?_setRep ..] at found'
    split at found'
    · obtain ⟨wal₀, -, rfl⟩ := Option.map_eq_some_iff.mp found'
      rfl
    · rename_i same
      refine serves.dead m rs wal' ?_ held found' r member update
      intro inLog
      have split : x.slots = x.slots.take kept.length ++ [n] := by
        rw [← Theory.take_succ_of_getElem? slot, ← positions, List.take_length]
      rw [split] at inLog
      rcases List.mem_append.mp inLog with old | newest
      · exact gone old
      · exact same (List.mem_singleton.mp newest).symm

theorem apply (next : j.entries[j.applied]? = some e) :
    Serves { j with applied := j.applied + 1 } (x.applylog j.applied) given taken := by
  obtain ⟨n, wal, slot, found, -, rep⟩ := serves.waiting next (Nat.le_refl _)
  have ran := serves.setRep_ran found rep .success
  have applied : x.applylog j.applied = x.setRep n .success := by
    rw [Exec.applylog, Int.toNat_natCast, slot]
  rw [applied]
  refine
    { toFiled := serves.toFiled.apply slot
      packets := by simp [Exec.setRep, serves.packets]
      fifo := serves.fifo
      held := serves.held
      dead := ?_
      ran := fun c => (ran c).1
      settled := fun c => (ran c).2 }
  intro m rs wal' gone held found'
  have other : n ≠ m := fun same => gone (same ▸ List.mem_of_getElem? slot)
  rw [show (x.setRep n .success).wals[m]? = _ from getElem?_setRep .., if_neg other] at found'
  exact serves.dead m rs wal' gone held found'

section Inside

variable (inside : j.applied ≤ j.entries.length)
include inside

/-- The executors follow what a callback tells. -/
theorem play (isLeader : Bool) {c : Callback ι (List (Rpc π))} (step : Journal.Step j c k) :
    ∃ given', Serves k (x.play isLeader c) given' taken := by
  cases step with
  | offer _ e idx place =>
    subst place
    exact ⟨_, serves.offer isLeader e inside⟩
  | pop kept e front applied idx place unapplied =>
    subst place
    exact ⟨given, serves.pop unapplied⟩
  | apply _ e idx place next =>
    subst place
    exact ⟨given, serves.apply next⟩
  | poll _ etys idx place oldest done =>
    exact ⟨given, { serves with toFiled := { serves.toFiled with } }⟩
  | outward _ outward =>
    refine ⟨given, ?_⟩
    cases c <;> first | exact serves | cases outward
  | free _ e => exact ⟨given, serves⟩

/-- The worth of everything handed to a core is the applied log. -/
theorem worth_issued (c : Nat) :
    (issuedTo c given).filterMap x.worth =
      (indexed (j.entries.take j.applied)).flatMap (updatesOf c) := by
  let block (p : List (Rpc π) × Nat) : List (Int × Rpc π) :=
    ((p.1.filter (·.core = c)).map fun r => (⟨p.2, r⟩ : Item π)).filterMap x.worth
  -- the updates of a packet whose verdict is good, and of any other
  have good (n i : Nat) (e : LogEntry ι π) (wal : Wal) (found : x.wals[n]? = some wal)
      (idx : wal.idx = (i : Int)) (rep : wal.rep = .success) :
      block (issues e, n) = updatesOf c (e, (i : Int)) := by
    simp only [block, updatesOf]
    generalize issues e = rs
    induction rs with
    | nil => rfl
    | cons r rs ih => by_cases here : r.core = c <;> by_cases update : r.isUpdate = true <;>
        simp_all [Exec.worth]
  have bad (n : Nat) (rs : List (Rpc π)) (wal : Wal) (found : x.wals[n]? = some wal)
      (rep : ∀ r ∈ rs, r.isUpdate = true → wal.rep ≠ .success) : block (rs, n) = [] := by
    simp only [block, List.filterMap_eq_nil_iff, List.mem_map]
    rintro item ⟨r, member, rfl⟩
    rw [Exec.worth, found]
    exact if_neg fun both => rep r (List.mem_of_mem_filter member) both.1 both.2
  rw [issuedTo, List.filterMap_flatMap]
  change given.zipIdx.flatMap block = _
  rw [flatMap_zipIdx_of_support given block (S := x.slots.take j.applied)
    (serves.newer.sublist (List.take_sublist _ _))
    (fun n member => serves.packets ▸ serves.known n (List.mem_of_mem_take member))]
  · rw [List.flatMap_def, List.flatMap_def]
    refine congrArg List.flatten (List.ext_getElem? fun i => ?_)
    rw [List.getElem?_map, List.getElem?_map, indexed, List.getElem?_map, List.getElem?_zipIdx]
    by_cases applied : i < j.applied
    · rw [List.getElem?_take_of_lt applied, List.getElem?_take_of_lt applied]
      obtain ⟨e, entry⟩ : ∃ e, j.entries[i]? = some e := ⟨_, List.getElem?_eq_getElem (by omega)⟩
      obtain ⟨n, slot⟩ : ∃ n, x.slots[i]? = some n :=
        ⟨_, List.getElem?_eq_getElem (by rw [serves.positions]; omega)⟩
      obtain ⟨wal, found, idx, rep⟩ := serves.logged slot
      rw [if_pos applied] at rep
      simp [slot, entry, serves.held slot entry, good n i e wal found idx rep]
    · rw [List.getElem?_eq_none (by rw [List.length_take]; omega),
        List.getElem?_eq_none (by rw [List.length_take]; omega)]
      rfl
  · intro n rs unapplied held
    obtain ⟨bound, -⟩ := List.getElem?_eq_some_iff.mp held
    obtain ⟨wal, found⟩ : ∃ wal, x.wals[n]? = some wal :=
      ⟨_, List.getElem?_eq_getElem (serves.packets ▸ bound)⟩
    refine bad n rs wal found fun r member update => ?_
    by_cases inLog : n ∈ x.slots
    · obtain ⟨i, slot⟩ := List.getElem?_of_mem inLog
      have later : ¬ i < j.applied := fun early =>
        unapplied (List.mem_of_getElem? ((List.getElem?_take_of_lt early).trans slot))
      obtain ⟨wal', found', -, rep⟩ := serves.logged slot
      rw [if_neg later] at rep
      cases found.symm.trans found'
      rw [rep]
      decide
    · rw [serves.dead n rs wal inLog held found r member update]
      decide

/-- What a core ran is the beginning of what it will have run. -/
theorem ran_prefix (c : Nat) :
    (x.cores c).ran <+: (indexed (j.entries.take j.applied)).flatMap (updatesOf c) := by
  rw [← serves.worth_issued inside c, serves.ran c, ← serves.fifo c, List.filterMap_append]
  exact List.prefix_append _ _

end Inside

variable {rest : List (Item π)}

/-- What stands in a ring behind an item came later. -/
theorem later_pkt (ring : (x.cores c).ring = item :: rest)
    {other : Item π} (member : other ∈ (x.cores c).ring) : item.pkt ≤ other.pkt := by
  have sorted := issuedTo_sorted c given
  rw [← serves.fifo c, ring] at sorted
  rw [ring] at member
  have behind := (List.pairwise_append.mp sorted).2.1
  rcases List.mem_cons.mp member with rfl | later
  · exact Nat.le_refl _
  · exact List.rel_of_pairwise_cons behind later

/-- A core that comes to an item has run every update of the entries that were appended before the
item was handed out, if those are still in the log. -/
theorem ran_before (inside : j.applied ≤ j.entries.length)
    (ring : (x.cores c).ring = item :: rest) {old : List (LogEntry ι π)} (pre : old <+: j.entries)
    (before : ∀ i < old.length, ∃ n < item.pkt, x.slots[i]? = some n) :
    (indexed old).flatMap (updatesOf c) <+: (x.cores c).ran := by
  -- an old entry without a verdict has no update for this core, or the core would have met it
  have met (i : Nat) (e : LogEntry ι π) (entry : old[i]? = some e) (late : j.applied ≤ i) :
      updatesOf c (e, (i : Int)) = [] := by
    obtain ⟨bound, -⟩ := List.getElem?_eq_some_iff.mp entry
    obtain ⟨n, early, slot⟩ := before i bound
    have entry' : j.entries[i]? = some e := by rw [Theory.getElem?_prefix_eq pre bound, entry]
    obtain ⟨wal, found, -, rep⟩ := serves.logged slot
    rw [if_neg (Nat.not_lt.mpr late)] at rep
    rw [updatesOf, List.map_eq_nil_iff, List.filter_eq_nil_iff]
    rintro r member wanted
    simp only [decide_eq_true_eq] at wanted
    have issued : (⟨n, r⟩ : Item π) ∈ issuedTo c given :=
      mem_issuedTo.mpr ⟨wanted.1, _, serves.held slot entry', member⟩
    rw [← serves.fifo c] at issued
    rcases List.mem_append.mp issued with took | waits
    · obtain ⟨wal', found', known⟩ := serves.settled c _ took wanted.2
      cases found.symm.trans found'
      exact known rep
    · exact absurd (serves.later_pkt ring waits) (Nat.not_le.mpr early)
  -- what the ring is still worth has a later index
  have later (y : Int × Rpc π) (member : y ∈ (x.cores c).ring.filterMap x.worth) :
      (old.length : Int) ≤ y.1 := by
    obtain ⟨other, waits, worth⟩ := List.mem_filterMap.mp member
    obtain ⟨wal, found, counted⟩ := Option.bind_eq_some_iff.mp worth
    split at counted
    · rename_i good
      cases counted
      have issued : other ∈ issuedTo c given := by
        rw [← serves.fifo c]
        exact List.mem_append_right _ waits
      obtain ⟨-, rs, held, inPacket⟩ := mem_issuedTo.mp issued
      have inLog : other.pkt ∈ x.slots := by
        by_contra gone
        rw [serves.dead _ rs wal gone held found _ inPacket good.1] at good
        cases good.2
      obtain ⟨i, slot⟩ := List.getElem?_of_mem inLog
      obtain ⟨wal', found', idx, -⟩ := serves.logged slot
      cases found.symm.trans found'
      rw [idx]
      by_contra early
      obtain ⟨n, low, slot'⟩ := before i (by omega)
      cases slot.symm.trans slot'
      exact absurd (serves.later_pkt ring waits) (Nat.not_le.mpr low)
    · cases counted
  have whole : (x.cores c).ran ++ (x.cores c).ring.filterMap x.worth =
      (indexed (j.entries.take j.applied)).flatMap (updatesOf c) := by
    rw [← serves.worth_issued inside c, serves.ran c, ← serves.fifo c, List.filterMap_append]
  have both : old.take j.applied = (j.entries.take j.applied).take old.length := by
    rw [List.take_take, Nat.min_comm, ← List.take_take, Theory.take_length_eq pre]
  have enough : (indexed old).flatMap (updatesOf c) =
      (indexed (old.take j.applied)).flatMap (updatesOf c) := by
    conv_lhs => rw [← List.take_append_drop j.applied (indexed old), List.flatMap_append]
    rw [indexed_take, List.append_right_eq_self, List.flatMap_eq_nil_iff]
    intro p member
    obtain ⟨i, at_⟩ := List.getElem?_of_mem member
    rw [List.getElem?_drop, indexed, List.getElem?_map, List.getElem?_zipIdx] at at_
    cases entry : old[j.applied + i]? with
    | none =>
      rw [entry] at at_
      cases at_
    | some e =>
      rw [entry] at at_
      cases at_
      simpa using met (j.applied + i) e entry (Nat.le_add_right _ _)
  rw [enough, both, indexed_take]
  rw [← List.take_append_drop old.length (indexed (j.entries.take j.applied)),
    List.flatMap_append] at whole
  refine prefix_of_append_eq whole fun y waits ran => ?_
  obtain ⟨p, member, inEntry⟩ := List.mem_flatMap.mp ran
  rw [← indexed_take] at member
  obtain ⟨k, place, entry⟩ := mem_indexed.mp member
  obtain ⟨r, -, rfl⟩ := List.mem_map.mp inEntry
  have bound := (List.getElem?_eq_some_iff.mp entry).1
  rw [List.length_take] at bound
  have high := later _ waits
  simp only [place] at high
  omega

end Serves

/-! ## Runs of a replica -/

section Runs

variable [DecidableEq ι]

/-- The executors have seen the callbacks played so far, and the rest of the story is the server's. -/
structure InStep (w : Replica ι π) : Prop where
  chain : IndexChain w.srv
  serves : ∃ cs later j given taken, w.srv.calls = cs ++ later ∧ cs.length = w.played ∧
    Journal.Run .empty cs j ∧ Journal.Run j later w.srv.journal ∧ Serves j w.exec given taken

variable {a : Act ι π}

/-- What a core has run it never takes back. -/
theorem ran_grows {w w' : Replica ι π} (moved : w.step a = some w') (c : Nat) :
    (w.exec.cores c).ran <+: (w'.exec.cores c).ran := by
  cases a with
  | call env input =>
    rw [Replica.step] at moved
    split at moved
    · obtain ⟨srv, -, rfl⟩ := Option.map_eq_some_iff.mp moved
      exact List.prefix_rfl
    · cases moved
  | play =>
    obtain ⟨cb, -, rfl⟩ := Option.map_eq_some_iff.mp moved
    have same : ((w.exec.play w.srv.cycloneIsLeader cb).cores c).ran = (w.exec.cores c).ran := by
      cases cb with
      | logPop e idx =>
        unfold Exec.play Exec.logentryPop
        simp only
        split <;> rfl
      | applylog e idx =>
        unfold Exec.play Exec.applylog
        simp only
        split <;> rfl
      | _ => rfl
    rw [same]
  | publish => cases moved; exact List.prefix_rfl
  | exec core =>
    obtain ⟨⟨x, sent⟩, taken, rfl⟩ := Option.map_eq_some_iff.mp moved
    obtain ⟨item, turn⟩ := Exec.step_turn taken
    by_cases here : c = core
    · rw [here, turn.ran]
      exact List.prefix_append _ _
    · obtain ⟨put, rfl⟩ := turn.others
      simp only [Function.update_of_ne here]
      exact List.prefix_rfl
  | direct rpc junk =>
    rw [Replica.step] at moved
    split at moved
    · cases moved; exact List.prefix_rfl
    · cases moved

theorem inStep_step {w w' : Replica ι π} (inStep : InStep w) (moved : w.step a = some w') :
    InStep w' := by
  obtain ⟨chain, cs, later, j, given, taken, calls, count, told, tells, serves⟩ := inStep
  cases a with
  | call env input =>
    rw [Replica.step] at moved
    split at moved
    · rename_i idle
      obtain ⟨srv, stepped, rfl⟩ := Option.map_eq_some_iff.mp moved
      obtain ⟨new, extended, run⟩ := tells_step chain stepped
      exact ⟨(advances_step stepped chain).1, cs, later ++ new, j, given, taken,
        by rw [extended, calls, List.append_assoc], count, told, tells.trans run, serves⟩
    · cases moved
  | play =>
    obtain ⟨c, next, rfl⟩ := Option.map_eq_some_iff.mp moved
    obtain ⟨k, rest, step, told', tells', calls', count'⟩ := told.next tells calls count next
    obtain ⟨given', serves'⟩ :=
      serves.play (told.appliedOf_eq).1 w.srv.cycloneIsLeader step
    exact ⟨chain, cs ++ [c], rest, k, given', taken, calls', count', told', tells', serves'⟩
  | publish =>
    cases moved
    exact ⟨chain, cs, later, j, given, taken, calls, count, told, tells, { serves with }⟩
  | exec core =>
    obtain ⟨⟨x, sent⟩, turn, rfl⟩ := Option.map_eq_some_iff.mp moved
    obtain ⟨item, turn⟩ := Exec.step_turn turn
    exact ⟨chain, cs, later, j, given, _, calls, count, told, tells, serves.exec turn⟩
  | direct rpc junk =>
    rw [Replica.step] at moved
    split at moved
    · rename_i aside
      cases moved
      have idle : rpc.isUpdate = false := by
        rcases aside with readOnly | stable
        · rw [Rpc.isUpdate, readOnly]
          split <;> rfl
        · rw [Rpc.isUpdate, stable]
      exact ⟨chain, cs, later, j, _, taken, calls, count, told, tells, serves.direct junk idle⟩
    · cases moved

theorem inStep_run {ok : Replica ι π → Act ι π → Prop} {w₀ w : Replica ι π}
    (fresh : Fresh w₀.srv) (idle : w₀.exec = .init) (unplayed : w₀.played = 0)
    (run : Path Replica.step ok w₀ w) : InStep w := by
  refine run.keeps ?_ fun _ _ _ inStep _ moved => inStep_step inStep moved
  refine ⟨fresh.indexChain, [], [], .empty, [], fun _ => [], fresh.calls, unplayed.symm, .nil _, ?_,
    idle ▸ Serves.init⟩
  rw [Server.journal, fresh.log, fresh.lastAppliedIdx]
  exact .nil _

/-- **Executed is applied.**  However the calls on a raft server, its callbacks, the turns
of its executors and the packets that bypass the log interleave: what a core has run is
the beginning of the updates for it in the applied entries, and those were applied in index
order. -/
theorem executed_is_applied_prefix (me : ι) (replicas : Nat) (cfg : Config) (active : List ι)
    (target : 1 ≤ cfg.logTarget) {w : Replica ι π}
    (run : Path Replica.step anyStep (Replica.boot me replicas cfg active) w) (c : Nat) :
    (w.exec.cores c).ran <+: appliedUpdates c (w.srv.calls.take w.played) ∧
    (appliedOf (w.srv.calls.take w.played)).map Prod.snd =
      (List.range (appliedOf (w.srv.calls.take w.played)).length).map Int.ofNat := by
  obtain ⟨-, cs, later, j, given, taken, calls, count, told, -, serves⟩ :=
    inStep_run (boot_fresh me replicas active target) rfl rfl run
  obtain ⟨inside, applied⟩ := told.appliedOf_eq
  rw [calls, ← count, List.take_left, appliedUpdates, applied]
  refine ⟨serves.ran_prefix inside c, ?_⟩
  rw [indexed_snd]
  simp [indexed]

/-- A lone replica that applied an entry with two updates for a core that has run one of them. -/
theorem executed_is_applied_prefix_lone : ∃ (w : Replica (Fin 1) Nat) (r r' : Rpc Nat),
    (w.exec.cores 0).ran = [(0, r)] ∧
    appliedUpdates 0 (w.srv.calls.take w.played) = [(0, r), (0, r')] ∧
    ((w.exec.cores 0).ran <+: appliedUpdates 0 (w.srv.calls.take w.played) ∧
      (appliedOf (w.srv.calls.take w.played)).map Prod.snd =
        (List.range (appliedOf (w.srv.calls.take w.played)).length).map Int.ofNat) := by
  let env : Env (List (Rpc Nat)) := quietEnv []
  let put (k : Nat) : Rpc Nat := ⟨.req, false, 0, 1, k⟩
  let entry : Input (Fin 1) (List (Rpc Nat)) :=
    .recvEntry { id := 0, type := .normal, data := [put 7, put 8] }
  have ran : ∃ w ∈ exec Replica.step anyStep (Replica.boot (0 : Fin 1) 1 smallCfg [0])
      [.call env (.periodic 1), .call env entry, .play, .call env (.periodic 1), .play,
        .exec 0], (w.exec.cores 0).ran = [(0, put 7)] ∧
          appliedUpdates 0 (w.srv.calls.take w.played) = [(0, put 7), (0, put 8)] := by
    decide +kernel
  obtain ⟨w, run, executed, applied⟩ := Path.exists_of_exec ran
  exact ⟨w, put 7, put 8, executed, applied,
    executed_is_applied_prefix 0 1 smallCfg [0] (by decide) run 0⟩

end Runs

end Cyclone.Core
