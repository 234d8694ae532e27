/-
# Raft.Custody — whose packet an entry is

An entry carries the packets its data lives in.  The library tells its user what becomes of them:
`log_offer` takes an entry's packets over, `log_pop` and the batch poll give those of the log back,
and `log_poll` with index -1 gives back the packets of an entry of a message that was already there.
For one packet, `Journal.Run.balance` accounts for the log, and `Handed` says how many times a call
takes the packet over or spares it: once for each entry it was handed in, if it returns success, and
never if it fails.
-/
import Cyclone.Raft.Journal
import Mathlib.Algebra.GroupWithZero.Nat

namespace Cyclone.Raft

open Relation

set_option autoImplicit false

variable {ι M : Type} [DecidableEq M]

set_option linter.unusedSectionVars false

/-! ## Counting -/

/-- How often `m` is a packet of these entries. -/
def packets (m : M) (es : List (Entry ι (List M))) : Nat := (es.map (·.data.count m)).sum

@[simp] theorem packets_nil (m : M) : packets m ([] : List (Entry ι (List M))) = 0 := rfl

@[simp] theorem packets_cons (m : M) (e : Entry ι (List M)) (es : List (Entry ι (List M))) :
    packets m (e :: es) = e.data.count m + packets m es := by simp [packets]

@[simp] theorem packets_append (m : M) (es fs : List (Entry ι (List M))) :
    packets m (es ++ fs) = packets m es + packets m fs := by simp [packets]

theorem packets_take_drop (m : M) (es : List (Entry ι (List M))) (i : Nat) :
    packets m (es.take i) + packets m (es.drop i) = packets m es := by
  rw [← packets_append, List.take_append_drop]

/-- Stamping leaves the packets alone. -/
theorem packets_stampFrom (m : M) (isLeader : Bool) (prev : Option (Entry ι (List M))) (idx : Int)
    (es : List (Entry ι (List M))) :
    packets m (stampFrom isLeader prev idx es) = packets m es := by
  have same : (stampFrom isLeader prev idx es).map (fun e => e.data.count m) =
      es.map fun e => e.data.count m :=
    stampFrom_map (fun prev idx e => by cases isLeader <;> rfl) prev idx es
  rw [packets, same, packets]

/-- How often a callback takes `m` over for the log. -/
def Callback.takes (m : M) : Callback ι (List M) → Nat
  | .logOffer e _ => e.data.count m
  | _ => 0

/-- How often a callback gives `m` back without the log having had it. -/
def Callback.spares (m : M) : Callback ι (List M) → Nat
  | .logPoll e => e.data.count m
  | _ => 0

/-- How often a callback gives `m` back from the log. -/
def Callback.releases (m : M) : Callback ι (List M) → Nat
  | .logPop e _ => e.data.count m
  | .logPollBatch es _ => packets m es
  | _ => 0

/-- A count over a list of callbacks. -/
def total (f : Callback ι (List M) → Nat) (cs : List (Callback ι (List M))) : Nat := (cs.map f).sum

@[simp] theorem total_nil (f : Callback ι (List M) → Nat) : total f [] = 0 := rfl

@[simp] theorem total_cons (f : Callback ι (List M) → Nat) (c : Callback ι (List M))
    (cs : List (Callback ι (List M))) : total f (c :: cs) = f c + total f cs := by simp [total]

@[simp] theorem total_append (f : Callback ι (List M) → Nat) (cs ds : List (Callback ι (List M))) :
    total f (cs ++ ds) = total f cs + total f ds := by simp [total]

variable {cs : List (Callback ι (List M))}

theorem total_eq_zero {f : Callback ι (List M) → Nat} (none_ : ∀ c ∈ cs, f c = 0) :
    total f cs = 0 := by
  induction cs with
  | nil => rfl
  | cons c cs ih =>
    rw [total_cons, none_ c List.mem_cons_self,
      ih fun d later => none_ d (List.mem_cons_of_mem c later)]

/-! ## The log -/

/-- How often the log holds `m`: in what was offered and not given back. -/
def Journal.held (m : M) (j : Journal ι (List M)) : Nat := packets m (j.entries.drop j.front)

/-- **What the log takes it holds or gives back.** -/
theorem Journal.Run.balance {j k : Journal ι (List M)} (run : Journal.Run j cs k) (m : M)
    (front : j.front ≤ j.applied) (inside : j.applied ≤ j.entries.length) :
    k.front ≤ k.applied ∧ k.applied ≤ k.entries.length ∧
      k.held m + total (Callback.releases m) cs = j.held m + total (Callback.takes m) cs := by
  induction run with
  | nil => exact ⟨front, inside, by simp⟩
  | @snoc k l cs c run step ih =>
    obtain ⟨low, high, even⟩ := ih
    simp only [total_append, total_cons, total_nil]
    cases step with
    | offer _ ety idx place =>
      refine ⟨low, high.trans (by simp), ?_⟩
      simp only [Journal.held, Callback.releases, Callback.takes] at even ⊢
      rw [List.drop_append_of_le_length (low.trans high), packets_append, packets_cons, packets_nil]
      omega
    | pop kept ety front' done idx place unapplied =>
      have short : front' ≤ kept.length := Nat.le_trans low unapplied
      refine ⟨low, unapplied, ?_⟩
      simp only [Journal.held, Callback.releases, Callback.takes] at even ⊢
      rw [List.drop_append_of_le_length short, packets_append, packets_cons, packets_nil] at even
      omega
    | apply _ ety idx place next =>
      obtain ⟨bound, -⟩ := List.getElem?_eq_some_iff.mp next
      refine ⟨Nat.le_succ_of_le low, bound, ?_⟩
      simpa [Journal.held, Callback.releases, Callback.takes] using even
    | poll _ etys idx place oldest done =>
      refine ⟨done, high, ?_⟩
      simp only [Journal.held, Callback.releases, Callback.takes] at even ⊢
      have split := packets_take_drop m (k.entries.drop k.front) etys.length
      rw [← oldest, List.drop_drop] at split
      omega
    | outward _ outward =>
      have silent : c.releases m = 0 ∧ c.takes m = 0 := by
        cases c <;> first | exact ⟨rfl, rfl⟩ | cases outward
      refine ⟨low, high, ?_⟩
      rw [silent.1, silent.2]
      exact even
    | free => exact ⟨low, high, by simpa [Callback.releases, Callback.takes] using even⟩

/-! ## Calls -/

/-- Between `s` and `t` the packet was taken over or spared `n` times. -/
def Handed (m : M) (s t : Server ι (List M)) (n : Nat) : Prop :=
  ∃ cs, t.calls = s.calls ++ cs ∧ total (Callback.takes m) cs + total (Callback.spares m) cs = n

namespace Handed

variable [DecidableEq ι] {m : M} {s t u : Server ι (List M)} {k n : Nat}

theorem refl (m : M) (s : Server ι (List M)) : Handed m s s 0 := ⟨[], by simp, by simp⟩

theorem trans (first : Handed m s t k) (second : Handed m t u n) : Handed m s u (k + n) := by
  obtain ⟨cs, calls, sum⟩ := first
  obtain ⟨cs', calls', sum'⟩ := second
  refine ⟨cs ++ cs', by rw [calls', calls, List.append_assoc], ?_⟩
  simp only [total_append]
  omega

theorem of_none (calls : ∃ cs, t.calls = s.calls ++ cs ∧
    ∀ c ∈ cs, c.takes m = 0 ∧ c.spares m = 0) : Handed m s t 0 := by
  obtain ⟨cs, extended, none_⟩ := calls
  refine ⟨cs, extended, ?_⟩
  rw [total_eq_zero fun c member => (none_ c member).1, total_eq_zero fun c member => (none_ c member).2]

theorem of_outward (calls : ∃ cs, t.calls = s.calls ++ cs ∧ ∀ c ∈ cs, c.outward = true) :
    Handed m s t 0 := by
  obtain ⟨cs, extended, outward⟩ := calls
  refine of_none ⟨cs, extended, fun c member => ?_⟩
  have out := outward c member
  cases c <;> first | exact ⟨rfl, rfl⟩ | cases out

theorem offers (m : M) (idx : Int) (es : List (Entry ι (List M))) :
    total (Callback.takes m) (offers idx es) = packets m es ∧
      total (Callback.spares m) (Cyclone.Raft.offers idx es) = 0 := by
  induction es generalizing idx with
  | nil => exact ⟨rfl, rfl⟩
  | cons e es ih => simp [Cyclone.Raft.offers, Callback.takes, Callback.spares, ih]

theorem appended {es : List (Entry ι (List M))} (appended : Appended s t es) :
    Handed m s t (packets m es) := by
  obtain ⟨taken, spared⟩ := offers m s.log.back es
  refine ⟨Cyclone.Raft.offers s.log.back es, ?_, by rw [taken, spared]; rfl⟩
  rw [appended.core]

theorem truncated (m : M) (s : Server ι (List M)) (idx : Int) : Handed m s (s.truncate idx) 0 := by
  refine of_none ⟨_, rfl, fun c member => ?_⟩
  obtain ⟨p, -, rfl⟩ := List.mem_map.mp member
  exact ⟨rfl, rfl⟩

theorem cutAt (m : M) (s : Server ι (List M)) (cut : Option Int) : Handed m s (s.cutAt cut) 0 := by
  cases cut with
  | none => exact refl m s
  | some idx => exact truncated m s idx

variable {env : Env (List M)} {input : Input ι (List M)}

theorem light (act : Light env input s t) : Handed m s t 0 := by
  rcases act.kinds with calm | ⟨ety, next⟩ | ⟨-, rfl⟩
  · exact of_outward calm.calls
  · refine of_none ⟨[.applylog ety s.lastAppliedIdx], by rw [next.core], ?_⟩
    simp [Callback.takes, Callback.spares]
  · unfold Server.compactLog
    split
    · exact refl m s
    · refine of_none ⟨_, rfl, fun c member => ?_⟩
      obtain ⟨p, -, rfl⟩ := List.mem_map.mp member
      exact ⟨rfl, rfl⟩

theorem lights (acts : ReflTransGen (Light env input) s t) : Handed m s t 0 := by
  induction acts with
  | refl => exact refl m s
  | tail _ act ih => exact ih.trans (light act)

/-- A call that is handed no packets. -/
theorem course (course : Course env input s t) (fresh : env.completion = [])
    (messages : ∀ source ae, input ≠ .recv source (.appendentries ae))
    (entry : ∀ e, input ≠ .recvEntry e) (batch : ∀ es, input ≠ .recvEntryBatch es) :
    Handed m s t 0 := by
  cases course with
  | plays acts => exact lights acts
  | @writes v w opens before write after =>
    have written : Handed m v w 0 := by
      cases write with
      | @submit _ _ _ s₁ s₂ es early submits submitted =>
        have empty : packets m (es.map (Server.entryOf v.currentTerm)) = 0 := by
          cases input with
          | recvEntry e => exact absurd rfl (entry e)
          | recvEntryBatch es => exact absurd rfl (batch es)
          | periodic => exact submits.elim
          | checkpoint => exact submits.elim
          | recv source msg =>
            cases msg with
            | appendentriesResponse r =>
              obtain ⟨-, rfl⟩ := submits
              simp [Server.entryOf, fresh]
            | _ => exact submits.elim
        have appended : Handed m { v with votingCfgChangeLogIdx := early } s₁ 0 := by
          have handed := Handed.appended (m := m) submitted.appended
          rwa [packets_stampFrom, empty] at handed
        have sent : Handed m s₁ s₂ 0 := of_outward submitted.sent.quiet.calls
        obtain ⟨cs, calls, sum⟩ := appended.trans sent
        exact ⟨cs, by rw [submitted.ends]; exact calls, sum⟩
      | cut => exact truncated m v _
      | take => exact absurd rfl (messages _ _)
    exact ((lights before).trans written).trans (lights after)

/-- `raft_recv_appendentries` takes over or spares the packets of its entries if it returns success,
and leaves them to the caller otherwise. -/
theorem raftRecvAppendentries {source : ι} {ae : MsgAppendentries ι (List M)}
    {r : MsgAppendentriesResponse} (ran : s.raftRecvAppendentries source ae = .ok (t, r)) :
    Handed m s t (if r.success = true then packets m ae.entries else 0) := by
  have outcome := raftRecvAppendentries_spec s source ae
  rw [ran] at outcome
  have adopted : Handed m s (s.adopted ae) 0 := of_outward (quiet_adopted s ae).calls
  generalize named : (Except.ok (t, r) : Except (Fault ι (List M)) _) = result at outcome
  cases outcome with
  | exits => cases named
  | stale =>
    cases named
    exact of_outward (sent_heard (fun _ => True) s ae).quiet.calls
  | unvoting => cases named
  | missing =>
    cases named
    exact adopted
  | conflict =>
    cases named
    exact adopted.trans (truncated m _ _)
  | conflictFault => cases named
  | checked present current agrees outcome =>
    cases outcome with
    | accept i cut scan s' committed =>
      cases named
      simp only [Server.acceptReply, if_true]
      obtain ⟨s₁, appended, accepted⟩ := acceptEntries_spec ((s.adopted ae).cutAt cut) scan.short
      have short : Handed m s s₁ (packets m (ae.entries.drop i)) := by
        have handed := ((adopted.trans (cutAt m _ cut)).trans (Handed.appended appended))
        rwa [packets_stampFrom, Nat.zero_add] at handed
      have spared : Handed m s₁ ((s.adopted ae).taken ae i cut) (packets m (ae.entries.take i)) := by
        refine ⟨(ae.entries.take i).map Callback.logPoll, by rw [Server.taken, accepted], ?_⟩
        generalize ae.entries.take i = es
        induction es with
        | nil => rfl
        | cons e es ih =>
          simp only [List.map_cons, total_cons, Callback.takes, Callback.spares, packets_cons]
          omega
      have committed : Handed m ((s.adopted ae).taken ae i cut) s' 0 :=
        of_outward (followCommit_commits committed).calm.calls
      have all := (short.trans spared).trans committed
      rw [Nat.add_zero, Nat.add_comm, packets_take_drop] at all
      exact all
    | commitFault => cases named
    | emptyFault => cases named
    | scanFault => cases named

/-- `raft_recv_entry_batch` takes over the packets of its entries, or returns an error. -/
theorem raftRecvEntryBatch {es : List (MsgEntry ι (List M))}
    {answer : Except EntryError (List MsgEntryResponse)}
    (ran : s.raftRecvEntryBatch env es = .ok (t, answer)) :
    Handed m s t (if answer.isOk then (es.map (·.data.count m)).sum else 0) := by
  unfold Server.raftRecvEntryBatch at ran
  split at ran
  · cases ran
    exact refl m s
  simp only at ran
  split at ran
  · cases ran
    exact refl m s
  rename_i detected _
  split at ran
  · cases ran
  cases ran
  have appended := Handed.appended (m := m) (raftAppendEntryBatch_spec
    { s with votingCfgChangeLogIdx := detected } (es.map (Server.entryOf s.currentTerm)))
  generalize { s with votingCfgChangeLogIdx := detected }.raftAppendEntryBatch
    (es.map (Server.entryOf s.currentTerm)) = s₁ at appended ⊢
  have same : packets m (es.map (Server.entryOf s.currentTerm)) = (es.map (·.data.count m)).sum := by
    rw [packets, List.map_map]
    rfl
  rw [packets_stampFrom, same] at appended
  obtain ⟨cs, calls, sum⟩ := appended.trans (of_outward (sent_sendRound env s₁).quiet.calls)
  refine ⟨cs, ?_, sum⟩
  split <;> exact calls

end Handed

end Cyclone.Raft
