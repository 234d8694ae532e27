/-
# Core.Rendezvous — the cores of a multicore RPC agree on executing it

The cores named in the mask of an RPC meet at the `core_status_t` of the lowest of them.  That
leader announces the RPC under a counter that is odd while it writes, collects the others in
`barrier[0]`, stands in for those whose `exec_term` has passed the RPC's snapshot, and lets everybody
out through `barrier[1]`.  The followers poll the leader's memory, and every read and write of shared
memory is a step of its own; the nonce is copied and compared byte by byte.

A core enters an RPC once and at the term of its snapshot.  Between two RPCs it may raise its term,
also while the leader of the last one still is in `check_terms`: the leader then takes a core that
was told to execute for one that failed.

The invariant `Sound` says of every core what holds where it stands: of a leader, what its own memory
says of the others; of a follower, what it knows of its leader's memory.  A verdict rests on who has
entered: `true` on everybody, `false` on a core that never will, and neither is ever taken back.
-/
import Mathlib.Data.Fintype.Basic
import Mathlib.Data.Finset.Lattice.Basic
import Mathlib.Tactic.Common

namespace Cyclone.Core.Rendezvous

set_option autoImplicit false

/-! ## Shared memory -/

/-- The bytes of an `ic_rdv_t`. -/
abbrev Nonce := Fin 14 → UInt8

/-- A multicore RPC; its leader is the lowest core of its mask. -/
structure McRpc (n : Nat) where
  mask : Finset (Fin n)
  leader : Fin n
  leads : leader ∈ mask ∧ ∀ c ∈ mask, leader ≤ c
  snapshot : Nat → Nat
  nonce : Nonce

/-- `core_status_t`, less the checkpoint index. -/
structure CoreStatus (n : Nat) where
  execTerm : Nat
  stable : Nat
  nonce : Nonce
  success : Bool
  barrier0 : Finset (Fin n)
  barrier1 : Finset (Fin n)

/-- What `dispatcher_start` leaves in memory. -/
def CoreStatus.cleared (n : Nat) : CoreStatus n where
  execTerm := 0
  stable := 0
  nonce := fun _ => 0
  success := false
  barrier0 := ∅
  barrier1 := ∅

def coreToQuorum (numQuorums : Nat) {n : Nat} (core : Fin n) : Nat := core.val % numQuorums

/-- The multicore RPCs of a run, by identity. -/
structure Traffic (n : Nat) (ρ : Type) where
  numQuorums : Nat
  rpc : ρ → McRpc n
  distinct : Function.Injective fun r => (rpc r).nonce

/-! ## The two sides -/

/-- The access to shared memory a follower makes next. -/
inductive FollowerAt where
  | poll
  | readStable
  | compare (stable i : Nat)
  | arrive
  | await
  | readSuccess
  | depart (success : Bool)
deriving DecidableEq

/-- The access to shared memory the leader makes next. -/
inductive LeaderAt (n : Nat) where
  | begin
  | copy (i : Nat)
  | clear0
  | clear1
  | publish
  | join
  | check (failed : Finset (Fin n))
  | scan (i : Nat) (failed : Finset (Fin n))
  | deny (failed : Finset (Fin n))
  | mark (failed : Finset (Fin n))
  | leave (failed : Finset (Fin n))
  | leaveFailed (failed : Finset (Fin n))
  | drain (failed : Finset (Fin n))
deriving DecidableEq

/-- Where a core is: between RPCs, or in one of the two functions for an RPC. -/
inductive Pc (n : Nat) (ρ : Type) where
  | idle
  | follow (r : ρ) (place : FollowerAt)
  | lead (r : ρ) (place : LeaderAt n)
deriving DecidableEq

def Pc.rpc {n : Nat} {ρ : Type} : Pc n ρ → Option ρ
  | .idle => none
  | .follow r _ => some r
  | .lead r _ => some r

section Sides

variable {n : Nat}

/-- `wait_barrier_follower` by core `c`, one access to the leader's memory `s`: the memory after
it, and the next access or the value returned. -/
def waitBarrierFollower (rpc : McRpc n) (c : Fin n) (termLeader : Nat) (s : CoreStatus n) :
    FollowerAt → CoreStatus n × (FollowerAt ⊕ Bool)
  | .poll => (s, if s.execTerm > termLeader then .inr false else .inl .readStable)
  | .readStable => (s, .inl (if s.stable % 2 = 1 then .poll else .compare s.stable 0))
  | .compare stable i =>
    if inNonce : i < 14 then
      (s, .inl (if s.nonce ⟨i, inNonce⟩ = rpc.nonce ⟨i, inNonce⟩ then .compare stable (i + 1) else .poll))
    else (s, .inl (if s.stable = stable then .arrive else .poll))
  | .arrive => ({ s with barrier0 := insert c s.barrier0 }, .inl .await)
  | .await => (s, .inl (if s.barrier0 = rpc.mask then .readSuccess else .await))
  | .readSuccess => (s, .inl (.depart s.success))
  | .depart success => ({ s with barrier1 := insert c s.barrier1 }, .inr success)

/-- `wait_barrier_leader` by core `c`, one access to its own memory `s` or, in `check_terms`, to the
`exec_term` of one core. -/
def waitBarrierLeader (rpc : McRpc n) (c : Fin n) (due terms : Fin n → Nat) (s : CoreStatus n) :
    LeaderAt n → CoreStatus n × (LeaderAt n ⊕ Bool)
  | .begin => ({ s with stable := s.stable + 1 }, .inl (.copy 0))
  | .copy i =>
    if inNonce : i < 14 then
      ({ s with nonce := Function.update s.nonce ⟨i, inNonce⟩ (rpc.nonce ⟨i, inNonce⟩) }, .inl (.copy (i + 1)))
    else ({ s with success := true }, .inl .clear0)
  | .clear0 => ({ s with barrier0 := ∅ }, .inl .clear1)
  | .clear1 => ({ s with barrier1 := ∅ }, .inl .publish)
  | .publish => ({ s with stable := s.stable + 1 }, .inl .join)
  | .join => ({ s with barrier0 := insert c s.barrier0 }, .inl (.check ∅))
  | .check failed => (s, .inl (if s.barrier0 = rpc.mask then .leave failed else .scan 0 ∅))
  | .scan i failed =>
    if isCore : i < n then
      let core : Fin n := ⟨i, isCore⟩
      (s, .inl (.scan (i + 1) (if due core < terms core then insert core failed else failed)))
    else (s, .inl (if failed ∩ rpc.mask = ∅ then .check ∅ else .deny (failed ∩ rpc.mask)))
  | .deny failed => ({ s with success := false }, .inl (.mark failed))
  | .mark failed => ({ s with barrier0 := s.barrier0 ∪ failed }, .inl (.check failed))
  | .leave failed => ({ s with barrier1 := insert c s.barrier1 }, .inl (.leaveFailed failed))
  | .leaveFailed failed => ({ s with barrier1 := s.barrier1 ∪ failed }, .inl (.drain failed))
  | .drain failed =>
    (s, if s.barrier1 = rpc.mask then .inr (decide (failed = ∅)) else .inl (.drain failed))

end Sides

/-! ## The interleaving -/

/-- The cores, their memory, and what each rendezvous has returned to whom. -/
structure World (n : Nat) (ρ : Type) where
  status : Fin n → CoreStatus n
  pc : Fin n → Pc n ρ
  returned : List (Fin n × ρ × Bool)

inductive Act (n : Nat) (ρ : Type) where
  | enter (c : Fin n) (r : ρ)
  | raise (c : Fin n) (term : Nat)
  | advance (c : Fin n)

section Traffic

variable {n : Nat} {ρ : Type} (T : Traffic n ρ)

def Traffic.mask (r : ρ) : Finset (Fin n) := (T.rpc r).mask

def Traffic.leader (r : ρ) : Fin n := (T.rpc r).leader

/-- The snapshot term of an RPC for the quorum of a core. -/
def Traffic.due (r : ρ) (c : Fin n) : Nat := (T.rpc r).snapshot (coreToQuorum T.numQuorums c)

def World.start : World n ρ where
  status := fun _ => .cleared n
  pc := fun _ => .idle
  returned := []

def World.term (w : World n ρ) (c : Fin n) : Nat := (w.status c).execTerm

/-- The world after core `c` has raised its term. -/
def World.raised (w : World n ρ) (c : Fin n) (term : Nat) : World n ρ :=
  { w with status := Function.update w.status c { w.status c with execTerm := term } }

/-- Core `c` has made an access for `r` that left `s` in the memory of core `d`. -/
def World.land (w : World n ρ) (c d : Fin n) (r : ρ) (s : CoreStatus n) : Pc n ρ ⊕ Bool → World n ρ
  | .inl place =>
    { w with status := Function.update w.status d s, pc := Function.update w.pc c place }
  | .inr verdict =>
    { status := Function.update w.status d s
      pc := Function.update w.pc c .idle
      returned := (c, r, verdict) :: w.returned }

/-- No core raises its term when the leader of an RPC it has been through is in `check_terms` and has
yet to read that term. -/
def Settled (w : World n ρ) : Act n ρ → Prop
  | .raise c _ => ∀ v ∈ w.returned, v.1 = c →
      match w.pc (T.leader v.2.1) with
      | .lead r (.scan i _) => r = v.2.1 → c.val < i
      | _ => True
  | _ => True

variable [DecidableEq ρ]

/-- `exec_rpc_internal` between two RPCs raises the term or calls `do_multicore_redezvous`; a core
inside makes its next access. -/
def step (w : World n ρ) : Act n ρ → Option (World n ρ)
  | .enter c r =>
    if w.pc c = .idle ∧ c ∈ T.mask r ∧ w.term c = T.due r c ∧ ∀ v, (c, r, v) ∉ w.returned then
      let place : Pc n ρ := if c = T.leader r then .lead r .begin else .follow r .poll
      some { w with pc := Function.update w.pc c place }
    else none
  | .raise c term =>
    if w.pc c = .idle ∧ w.term c < term then
      some (w.raised c term)
    else none
  | .advance c =>
    match w.pc c with
    | .idle => none
    | .follow r place =>
      let d := T.leader r
      let (s, next) := waitBarrierFollower (T.rpc r) c (T.due r d) (w.status d) place
      some (w.land c d r s (next.map (.follow r) id))
    | .lead r place =>
      let (s, next) := waitBarrierLeader (T.rpc r) c (T.due r) w.term (w.status c) place
      some (w.land c c r s (next.map (.lead r) id))

instance (w : World n ρ) (act : Act n ρ) : Decidable (Settled T w act) := by
  cases act with
  | enter c r => exact isTrue trivial
  | raise c term =>
    refine @List.decidableBAll _ _ (fun v => ?_) _
    refine @instDecidableForall _ _ _ ?_
    split <;> infer_instance
  | advance c => exact isTrue trivial
end Traffic

section Invariant

variable {n : Nat} {ρ : Type} (T : Traffic n ρ)

/-! ## Who has been where -/

namespace World

/-- Core `c` is in one of the two functions for `r`. -/
def Inside (w : World n ρ) (c : Fin n) (r : ρ) : Prop := (w.pc c).rpc = some r

def Returned (w : World n ρ) (c : Fin n) (r : ρ) : Prop := ∃ v, (c, r, v) ∈ w.returned

def Entered (w : World n ρ) (c : Fin n) (r : ρ) : Prop := w.Inside c r ∨ w.Returned c r

/-- Core `c` is past the term of `r` without having entered it, and so never will. -/
def Skips (w : World n ρ) (c : Fin n) (r : ρ) : Prop := ¬w.Entered c r ∧ T.due r c < w.term c

/-- What a verdict on `r` rests on. -/
def Verdict (w : World n ρ) (r : ρ) : Bool → Prop
  | true => ∀ c ∈ T.mask r, w.Entered c r
  | false => ∃ c ∈ T.mask r, w.Skips T c r

variable {T} {w w' : World n ρ} {r : ρ}

theorem Verdict.agree {v v' : Bool} (first : w.Verdict T r v) (second : w.Verdict T r v') : v = v' := by
  have apart : w.Verdict T r true → ¬w.Verdict T r false := fun all ⟨c, named, skips⟩ =>
    skips.1 (all c named)
  cases v <;> cases v'
  · rfl
  · exact absurd first (apart second)
  · exact absurd second (apart first)
  · rfl

end World

/-- What a step never takes back: a core that newly enters an RPC is at its term. -/
structure Grows (w w' : World n ρ) : Prop where
  returned : ∀ c r, w.Returned c r → w'.Returned c r
  entered : ∀ c r, w.Entered c r → w'.Entered c r
  fresh : ∀ c r, w'.Entered c r → w.Entered c r ∨ w'.term c = T.due r c
  term : ∀ c, w.term c ≤ w'.term c

section Grows

variable {T} {w w' : World n ρ} {r : ρ} (grows : Grows T w w')

include grows

theorem Grows.skips {c : Fin n} (skips : w.Skips T c r) : w'.Skips T c r := by
  have later := grows.term c
  have ahead := skips.2
  refine ⟨fun entered => ?_, by omega⟩
  rcases grows.fresh c r entered with before | level
  · exact skips.1 before
  · omega

theorem Grows.verdict {v : Bool} (verdict : w.Verdict T r v) : w'.Verdict T r v := by
  cases v with
  | false =>
    obtain ⟨c, named, skips⟩ := verdict
    exact ⟨c, named, grows.skips skips⟩
  | true => exact fun c named => grows.entered c r (verdict c named)

end Grows

/-! ## The memory of a leader -/

/-- The second increment of `stable` is done. -/
def LeaderAt.opened : LeaderAt n → Bool
  | .begin | .copy _ | .clear0 | .clear1 | .publish => false
  | _ => true

/-- The leader of `r` waits for its followers, or lets them out. -/
def World.OpenFor (w : World n ρ) (r : ρ) : Prop :=
  ∃ place, w.pc (T.leader r) = .lead r place ∧ place.opened = true

/-- The memory of core `d` outside its RPCs: whatever nonce is there, `d` has left that RPC. -/
structure Still (w : World n ρ) (d : Fin n) (s : CoreStatus n) : Prop where
  even : s.stable % 2 = 0
  nonce : ∀ r, T.leader r = d → s.nonce = (T.rpc r).nonce → w.Returned d r

/-- The memory of core `d` between the two increments of `stable`. -/
structure Writing (r : ρ) (s : CoreStatus n) : Prop where
  odd : s.stable % 2 = 1
  nonce : s.nonce = (T.rpc r).nonce
  success : s.success = true

/-- The memory of core `d` once it has announced `r`: who is in `barrier[0]` has entered unless the
RPC was denied, and who is in `barrier[1]` has left or never comes. -/
structure Opened (w : World n ρ) (d : Fin n) (r : ρ) (s : CoreStatus n) : Prop where
  even : s.stable % 2 = 0
  nonce : s.nonce = (T.rpc r).nonce
  arrived : ∀ c ∈ s.barrier0, c ∈ T.mask r ∧ (w.Entered c r ∨ s.success = false)
  denied : s.success = false → w.Verdict T r false
  left : ∀ c ∈ s.barrier1, c = d ∨ w.Returned c r ∨ w.Skips T c r

/-- The cores the leader stands in for. -/
def Failing (w : World n ρ) (r : ρ) (failed : Finset (Fin n)) : Prop :=
  ∀ c ∈ failed, c ∈ T.mask r ∧ w.Skips T c r

/-- `check_terms` before it reads core `i`: who has entered and is not read yet is at its term, and a
core that was denied earlier is found again. -/
structure Scanning (w : World n ρ) (r : ρ) (s : CoreStatus n) (i : Nat) (failed : Finset (Fin n)) :
    Prop where
  failing : Failing T w r (failed ∩ T.mask r)
  pending : ∀ c : Fin n, w.Entered c r → i ≤ c.val → w.term c = T.due r c
  again : s.success = false → ∃ c ∈ T.mask r, T.due r c < w.term c ∧ (c.val < i → c ∈ failed)

/-- The last `failed_mask` accounts for a denial. -/
structure Weighed (w : World n ρ) (r : ρ) (s : CoreStatus n) (failed : Finset (Fin n)) : Prop where
  failing : Failing T w r failed
  denial : s.success = false → failed ≠ ∅

/-- The memory of the leader, place by place. -/
def LeadAt (w : World n ρ) (d : Fin n) (r : ρ) (s : CoreStatus n) : LeaderAt n → Prop
  | .begin => Still T w d s
  | .copy i => s.stable % 2 = 1 ∧ ∀ j : Fin 14, j.val < i → s.nonce j = (T.rpc r).nonce j
  | .clear0 => Writing T r s
  | .clear1 => Writing T r s ∧ s.barrier0 = ∅
  | .publish => Writing T r s ∧ s.barrier0 = ∅ ∧ s.barrier1 = ∅
  | .join => Opened T w d r s ∧ s.success = true
  | .check failed => Opened T w d r s ∧ Weighed T w r s failed
  | .scan i failed => Opened T w d r s ∧ Scanning T w r s i failed
  | .deny failed => Opened T w d r s ∧ Failing T w r failed ∧ failed ≠ ∅
  | .mark failed => Opened T w d r s ∧ Failing T w r failed ∧ failed ≠ ∅ ∧ s.success = false
  | .leave failed | .leaveFailed failed | .drain failed =>
    Opened T w d r s ∧ Weighed T w r s failed ∧ s.barrier0 = T.mask r

/-- The leader of an RPC: whoever has left it has seen the full `barrier[0]`. -/
structure Leading (w : World n ρ) (d : Fin n) (r : ρ) (s : CoreStatus n) (place : LeaderAt n) : Prop where
  leads : d = T.leader r
  level : w.term d = T.due r d
  passed : ∀ c, w.Returned c r → place.opened = true ∧ s.barrier0 = T.mask r
  lead : LeadAt T w d r s place

/-! ## What a follower knows of it -/

/-- The leader's memory `s` as a follower finds it, place by place. -/
def FollowAt (w : World n ρ) (r : ρ) (s : CoreStatus n) : FollowerAt → Prop
  | .poll | .readStable => True
  | .compare stable i =>
    stable % 2 = 0 ∧ stable ≤ s.stable ∧
      (s.stable = stable → ∀ j : Fin 14, j.val < i → s.nonce j = (T.rpc r).nonce j)
  | .arrive | .await => w.OpenFor T r
  | .readSuccess => w.OpenFor T r ∧ s.barrier0 = T.mask r
  | .depart success => w.OpenFor T r ∧ s.barrier0 = T.mask r ∧ w.Verdict T r success

structure Following (w : World n ρ) (c : Fin n) (r : ρ) (place : FollowerAt) : Prop where
  named : c ∈ T.mask r
  follows : c ≠ T.leader r
  level : w.term c = T.due r c
  follow : FollowAt T w r (w.status (T.leader r)) place

/-- What holds of a core where it stands. -/
def Stands (w : World n ρ) (c : Fin n) : Pc n ρ → Prop
  | .idle => Still T w c (w.status c)
  | .follow r place => Still T w c (w.status c) ∧ Following T w c r place
  | .lead r place => Leading T w c r (w.status c) place

/-- The invariant of the rendezvous. -/
structure Sound (w : World n ρ) : Prop where
  stands : ∀ c, Stands T w c (w.pc c)
  once : ∀ c r, w.Returned c r → c ∈ T.mask r ∧ ¬w.Inside c r
  verdicts : ∀ c r v, (c, r, v) ∈ w.returned → w.Verdict T r v
  finished : ∀ c r, w.Returned (T.leader r) r → c ∈ T.mask r →
    ¬w.Inside c r ∧ (w.Returned c r ∨ T.due r c < w.term c)
  gaveUp : ∀ c r, ¬w.Entered (T.leader r) r → w.Returned c r →
    T.due r (T.leader r) < w.term (T.leader r)

/-! ## Frames -/

section Frames

variable {T} {w w' : World n ρ} {c d : Fin n} {r : ρ} {s s' : CoreStatus n}

theorem Still.grow (grows : Grows T w w') (still : Still T w d s) : Still T w' d s :=
  ⟨still.even, fun r leads same => grows.returned d r (still.nonce r leads same)⟩

theorem Opened.grow (grows : Grows T w w') (opened : Opened T w d r s) : Opened T w' d r s where
  even := opened.even
  nonce := opened.nonce
  arrived := fun c inside =>
    ⟨(opened.arrived c inside).1, (opened.arrived c inside).2.imp_left (grows.entered c r)⟩
  denied := fun denied => grows.verdict (opened.denied denied)
  left := fun c out => (opened.left c out).imp_right (Or.imp (grows.returned c r) grows.skips)

variable {failed : Finset (Fin n)}

theorem Failing.grow (grows : Grows T w w') (failing : Failing T w r failed) :
    Failing T w' r failed := fun c found => ⟨(failing c found).1, grows.skips (failing c found).2⟩

theorem Weighed.grow (grows : Grows T w w') (weighed : Weighed T w r s failed) :
    Weighed T w' r s failed := ⟨weighed.failing.grow grows, weighed.denial⟩

theorem Scanning.grow {i : Nat} (grows : Grows T w w')
    (pending : ∀ c : Fin n, w'.Entered c r → i ≤ c.val →
      w'.term c = T.due r c ∨ w.Entered c r ∧ w'.term c = w.term c)
    (scanning : Scanning T w r s i failed) : Scanning T w' r s i failed where
  failing := scanning.failing.grow grows
  pending := fun c entered unread => by
    rcases pending c entered unread with level | ⟨before, same⟩
    · exact level
    · rw [same, scanning.pending c before unread]
  again := fun denied => by
    obtain ⟨c, named, ahead, found⟩ := scanning.again denied
    exact ⟨c, named, ahead.trans_le (grows.term c), found⟩

variable {place : LeaderAt n}

theorem LeadAt.grow (grows : Grows T w w')
    (pending : ∀ i failed, place = .scan i failed → ∀ c : Fin n, w'.Entered c r → i ≤ c.val →
      w'.term c = T.due r c ∨ w.Entered c r ∧ w'.term c = w.term c)
    (lead : LeadAt T w d r s place) : LeadAt T w' d r s place := by
  cases place with
  | begin => exact Still.grow grows lead
  | copy i => exact lead
  | clear0 => exact lead
  | clear1 => exact lead
  | publish => exact lead
  | join => exact ⟨lead.1.grow grows, lead.2⟩
  | check failed => exact ⟨lead.1.grow grows, lead.2.grow grows⟩
  | scan i failed => exact ⟨lead.1.grow grows, lead.2.grow grows (pending i failed rfl)⟩
  | deny failed => exact ⟨lead.1.grow grows, lead.2.1.grow grows, lead.2.2⟩
  | mark failed => exact ⟨lead.1.grow grows, lead.2.1.grow grows, lead.2.2⟩
  | leave failed => exact ⟨lead.1.grow grows, lead.2.1.grow grows, lead.2.2⟩
  | leaveFailed failed => exact ⟨lead.1.grow grows, lead.2.1.grow grows, lead.2.2⟩
  | drain failed => exact ⟨lead.1.grow grows, lead.2.1.grow grows, lead.2.2⟩

theorem LeadAt.opened (lead : LeadAt T w d r s place) (isOpen : place.opened = true) :
    Opened T w d r s := by
  cases place with
  | begin | copy _ | clear0 | clear1 | publish => cases isOpen
  | _ => exact lead.1

/-- The memory of an announced RPC may change in its barriers. -/
theorem LeadAt.barriers (lead : LeadAt T w d r s place) (isOpen : place.opened = true)
    (success : s'.success = s.success) (full : s.barrier0 = T.mask r → s'.barrier0 = T.mask r)
    (after : Opened T w d r s') : LeadAt T w d r s' place := by
  have weigh : ∀ {failed}, Weighed T w r s failed → Weighed T w r s' failed := fun weighed =>
    ⟨weighed.failing, fun denied => weighed.denial (success ▸ denied)⟩
  cases place with
  | begin | copy _ | clear0 | clear1 | publish => cases isOpen
  | join => exact ⟨after, success.trans lead.2⟩
  | check failed => exact ⟨after, weigh lead.2⟩
  | scan i failed =>
    exact ⟨after, lead.2.failing, lead.2.pending, fun denied => lead.2.again (success ▸ denied)⟩
  | deny failed => exact ⟨after, lead.2⟩
  | mark failed => exact ⟨after, lead.2.1, lead.2.2.1, success.trans lead.2.2.2⟩
  | leave failed => exact ⟨after, weigh lead.2.1, full lead.2.2⟩
  | leaveFailed failed => exact ⟨after, weigh lead.2.1, full lead.2.2⟩
  | drain failed => exact ⟨after, weigh lead.2.1, full lead.2.2⟩

theorem FollowAt.grow {place : FollowerAt} (grows : Grows T w w') (opened : w.OpenFor T r → w'.OpenFor T r)
    (follow : FollowAt T w r s place) : FollowAt T w' r s place := by
  cases place with
  | poll => trivial
  | readStable => trivial
  | compare stable i => exact follow
  | arrive => exact opened follow
  | await => exact opened follow
  | readSuccess => exact ⟨opened follow.1, follow.2⟩
  | depart success => exact ⟨opened follow.1, follow.2.1, grows.verdict follow.2.2⟩

/-- What the followers of `r` may find changed in the memory of its leader. -/
structure Sees (w : World n ρ) (r : ρ) (s s' : CoreStatus n) : Prop where
  stable : s.stable ≤ s'.stable
  nonce : s'.stable = s.stable → s.stable % 2 = 0 → s'.nonce = s.nonce
  full : w.OpenFor T r → s.barrier0 = T.mask r → s'.barrier0 = T.mask r

theorem FollowAt.board {place : FollowerAt} (sees : Sees (T := T) w r s s') (follow : FollowAt T w r s place) :
    FollowAt T w r s' place := by
  cases place with
  | poll => trivial
  | readStable => trivial
  | compare stable i =>
    obtain ⟨even, old, same⟩ := follow
    have forward := sees.stable
    refine ⟨even, old.trans forward, fun current j before => ?_⟩
    have unchanged : s.stable = stable := by omega
    rw [sees.nonce (by omega) (by omega)]
    exact same unchanged j before
  | arrive => exact follow
  | await => exact follow
  | readSuccess => exact ⟨follow.1, sees.full follow.1 follow.2⟩
  | depart success => exact ⟨follow.1, sees.full follow.1 follow.2.1, follow.2.2⟩

end Frames

/-! ## Steps between RPCs -/

section Between

variable {T} {w w' : World n ρ} {c e : Fin n} {r : ρ}

variable {place : Pc n ρ}

/-- Another core's step: `e` stays where it stands. -/
theorem Stands.frame (grows : Grows T w w') (level : w'.term e = w.term e)
    (still : Still T w e (w.status e) → Still T w e (w'.status e))
    (follows : ∀ r at', place = .follow r at' → FollowAt T w r (w.status (T.leader r)) at' →
      FollowAt T w' r (w'.status (T.leader r)) at')
    (leads : ∀ r at', place = .lead r at' → Leading T w e r (w.status e) at' →
      Leading T w' e r (w'.status e) at') (stands : Stands T w e place) : Stands T w' e place := by
  cases place with
  | idle => exact (still stands).grow grows
  | follow r at' =>
    obtain ⟨rests, following⟩ := stands
    exact ⟨(still rests).grow grows, following.named, following.follows, level.trans following.level,
      follows r at' rfl following.follow⟩
  | lead r at' => exact leads r at' rfl stands

variable {r' : ρ}

theorem World.Inside.of_update
    (inside : World.Inside { w with pc := Function.update w.pc c place } e r') :
    w.Inside e r' ∨ e = c ∧ place.rpc = some r' := by
  change (Function.update w.pc c place e).rpc = some r' at inside
  by_cases same : e = c
  · subst same
    rw [Function.update_self] at inside
    exact .inr ⟨rfl, inside⟩
  · rw [Function.update_of_ne same] at inside
    exact .inl inside

theorem World.Entered.of_update
    (entered : World.Entered { w with pc := Function.update w.pc c place } e r') :
    w.Entered e r' ∨ e = c ∧ place.rpc = some r' := by
  rcases entered with inside | before
  · exact inside.of_update.imp_left .inl
  · exact .inl (.inr before)

theorem enter_grows (idle : w.pc c = .idle) (level : w.term c = T.due r c)
    (enters : place.rpc = some r) : Grows T w { w with pc := Function.update w.pc c place } where
  returned := fun _ _ before => before
  entered := by
    rintro e r' (inside | before)
    · have other : e ≠ c := by
        rintro rfl
        rw [World.Inside, idle] at inside
        cases inside
      refine .inl ?_
      change (Function.update w.pc c place e).rpc = some r'
      rw [Function.update_of_ne other]
      exact inside
    · exact .inr before
  fresh := by
    intro e r' entered
    rcases entered.of_update with before | ⟨rfl, arrives⟩
    · exact .inl before
    · cases enters.symm.trans arrives
      exact .inr level
  term := fun _ => le_rfl

theorem Leading.grow {d : Fin n} {s : CoreStatus n} {place : LeaderAt n} (grows : Grows T w w')
    (level : w'.term d = w.term d) (returned : ∀ c, w'.Returned c r → w.Returned c r)
    (pending : ∀ i failed, place = .scan i failed → ∀ c : Fin n, w'.Entered c r → i ≤ c.val →
      w'.term c = T.due r c ∨ w.Entered c r ∧ w'.term c = w.term c)
    (leading : Leading T w d r s place) : Leading T w' d r s place where
  leads := leading.leads
  level := level.trans leading.level
  passed := fun c gone => leading.passed c (returned c gone)
  lead := leading.lead.grow grows pending

/-- A core that is not leading moves: no RPC closes. -/
theorem World.OpenFor.of_other (others : ∀ e, e ≠ c → w'.pc e = w.pc e)
    (follows : ∀ r place, w.pc c ≠ .lead r place) (isOpen : w.OpenFor T r) : w'.OpenFor T r := by
  obtain ⟨place, leads, opened⟩ := isOpen
  refine ⟨place, ?_, opened⟩
  rw [others _ fun same => follows r place (same ▸ leads)]
  exact leads

theorem Sound.enter (sound : Sound T w) (idle : w.pc c = .idle) (level : w.term c = T.due r c)
    (new : ¬w.Returned c r) (enters : place.rpc = some r)
    (stands : Stands T { w with pc := Function.update w.pc c place } c place) :
    Sound T { w with pc := Function.update w.pc c place } := by
  have grows := enter_grows idle level enters
  have others : ∀ e, e ≠ c → Function.update w.pc c place e = w.pc e := fun e other =>
    Function.update_of_ne other _ _
  have only : ∀ {r'}, place.rpc = some r' → r' = r := fun arrives =>
    Option.some.inj (arrives.symm.trans enters)
  refine ⟨fun e => ?_, fun e r' gone => ⟨(sound.once e r' gone).1, fun inside => ?_⟩,
    fun e r' v given => grows.verdict (sound.verdicts e r' v given),
    fun e r' gone listed => ⟨fun inside => ?_, (sound.finished e r' gone listed).2⟩,
    fun e r' absent gone => sound.gaveUp e r' (fun before => absent (grows.entered _ _ before)) gone⟩
  · by_cases same : e = c
    · subst same
      change Stands T _ e (Function.update w.pc e place e)
      rw [Function.update_self]
      exact stands
    · change Stands T _ e (Function.update w.pc c place e)
      rw [others e same]
      refine (sound.stands e).frame grows rfl id (fun r' at' _ follow => ?_) fun r' at' _ leading => ?_
      · exact follow.grow grows (World.OpenFor.of_other others (by simp [idle]))
      · refine leading.grow grows rfl (fun _ gone => gone) fun i failed _ f entered _ => ?_
        rcases entered.of_update with before | ⟨rfl, arrives⟩
        · exact .inr ⟨before, rfl⟩
        · cases only arrives
          exact .inl level
  · rcases inside.of_update with before | ⟨rfl, arrives⟩
    · exact (sound.once e r' gone).2 before
    · cases only arrives
      exact new gone
  · rcases inside.of_update with before | ⟨rfl, arrives⟩
    · exact (sound.finished e r' gone listed).1 before
    · cases only arrives
      rcases (sound.finished e _ gone listed).2 with back | ahead
      · exact new back
      · omega

theorem World.raised_status (w : World n ρ) (c e : Fin n) (term : Nat) :
    ∃ t, (w.raised c term).status e = { w.status e with execTerm := t } := by
  by_cases same : e = c
  · subst same
    exact ⟨term, Function.update_self ..⟩
  · exact ⟨w.term e, Function.update_of_ne same ..⟩

variable {term : Nat}

theorem World.raised_term_of_ne (other : e ≠ c) : (w.raised c term).term e = w.term e :=
  congrArg CoreStatus.execTerm (Function.update_of_ne other ..)

theorem raised_grows (later : w.term c < term) : Grows T w (w.raised c term) where
  returned := fun _ _ before => before
  entered := fun _ _ before => before
  fresh := fun _ _ before => .inl before
  term := fun e => by
    by_cases same : e = c
    · subst same
      change w.term e ≤ (Function.update w.status e { w.status e with execTerm := term } e).execTerm
      rw [Function.update_self]
      exact later.le
    · exact (World.raised_term_of_ne same).ge

theorem Sound.raise (sound : Sound T w) (idle : w.pc c = .idle) (later : w.term c < term)
    (settled : Settled T w (.raise c term)) : Sound T (w.raised c term) := by
  have grows : Grows T w (w.raised c term) := raised_grows later
  refine ⟨fun e => ?_, sound.once, fun e r' v given => grows.verdict (sound.verdicts e r' v given),
    fun e r' gone listed => ?_, fun e r' absent gone => ?_⟩
  · change Stands T _ e (w.pc e)
    by_cases same : e = c
    · subst same
      have stands := sound.stands e
      obtain ⟨t, written⟩ := w.raised_status e e term
      rw [idle] at stands ⊢
      rw [Stands, written]
      exact Still.grow grows ⟨stands.even, stands.nonce⟩
    · refine (sound.stands e).frame grows (World.raised_term_of_ne same) (fun still => ?_)
        (fun r' at' _ follow => ?_) fun r' at' leads leading => ?_
      · obtain ⟨t, written⟩ := w.raised_status c e term
        rw [written]
        exact ⟨still.even, still.nonce⟩
      · obtain ⟨t, written⟩ := w.raised_status c (T.leader r') term
        rw [written]
        exact (follow.board ⟨le_rfl, fun _ _ => rfl, fun _ full => full⟩).grow grows id
      · have kept : (w.raised c term).status e = w.status e := Function.update_of_ne same ..
        rw [kept]
        refine leading.grow grows (World.raised_term_of_ne same) (fun _ gone => gone)
          fun i failed scans f entered unread => ?_
        by_cases mover : f = c
        · subst mover
          obtain inside | ⟨v, given⟩ := entered
          · rw [World.Inside] at inside
            change (w.pc f).rpc = some r' at inside
            rw [idle] at inside
            cases inside
          · have rule := settled (f, r', v) given rfl
            rw [show T.leader r' = e from leading.leads.symm, leads, scans] at rule
            exact absurd (rule rfl) (by omega)
        · exact .inr ⟨entered, World.raised_term_of_ne mover⟩
  · obtain ⟨outside, after⟩ := sound.finished e r' gone listed
    exact ⟨outside, after.imp_right fun ahead => ahead.trans_le (grows.term e)⟩
  · exact (sound.gaveUp e r' absent gone).trans_le (grows.term _)

end Between

/-! ## Accesses -/

section Accesses

variable {T} {w w' : World n ρ} {c d e : Fin n} {r : ρ} {s : CoreStatus n}

/-- Nobody has entered or left an RPC. -/
structure Alike (w w' : World n ρ) : Prop where
  rpc : ∀ c, (w'.pc c).rpc = (w.pc c).rpc
  term : ∀ c, w'.term c = w.term c
  returned : w'.returned = w.returned

theorem Alike.inside_iff (alike : Alike w w') : w'.Inside c r ↔ w.Inside c r := by
  rw [World.Inside, World.Inside, alike.rpc]

theorem Alike.returned_iff (alike : Alike w w') : w'.Returned c r ↔ w.Returned c r := by
  rw [World.Returned, World.Returned, alike.returned]

theorem Alike.entered_iff (alike : Alike w w') : w'.Entered c r ↔ w.Entered c r :=
  or_congr alike.inside_iff alike.returned_iff

theorem Alike.grows (alike : Alike w w') : Grows T w w' where
  returned := fun _ _ => alike.returned_iff.mpr
  entered := fun _ _ => alike.entered_iff.mpr
  fresh := fun _ _ entered => .inl (alike.entered_iff.mp entered)
  term := fun c => (alike.term c).ge

theorem Alike.leading {place : LeaderAt n} (alike : Alike w w') (leading : Leading T w d r s place) :
    Leading T w' d r s place :=
  leading.grow alike.grows (alike.term d) (fun _ => alike.returned_iff.mp)
    fun _ _ _ c entered _ => .inr ⟨alike.entered_iff.mp entered, alike.term c⟩

theorem Sound.alike (sound : Sound T w) (alike : Alike w w') (stands : ∀ e, Stands T w' e (w'.pc e)) :
    Sound T w' where
  stands := stands
  once := fun c r gone => by
    rw [alike.inside_iff]
    exact sound.once c r (alike.returned_iff.mp gone)
  verdicts := fun c r v given => by
    rw [alike.returned] at given
    exact alike.grows.verdict (sound.verdicts c r v given)
  finished := fun c r gone named => by
    rw [alike.inside_iff, alike.returned_iff, alike.term]
    exact sound.finished c r (alike.returned_iff.mp gone) named
  gaveUp := fun c r absent gone => by
    rw [alike.term]
    exact sound.gaveUp c r (fun before => absent (alike.entered_iff.mpr before)) (alike.returned_iff.mp gone)

theorem World.land_term {next : Pc n ρ ⊕ Bool} (kept : s.execTerm = w.term d) :
    (w.land c d r s next).term e = w.term e := by
  have written : (w.land c d r s next).status = Function.update w.status d s := by
    cases next <;> rfl
  rw [World.term, written]
  by_cases same : e = d
  · subst same
    rw [Function.update_self]
    exact kept
  · rw [Function.update_of_ne same]
    rfl

theorem land_alike {place : Pc n ρ} (same : place.rpc = (w.pc c).rpc) (kept : s.execTerm = w.term d) :
    Alike w (w.land c d r s (.inl place)) where
  rpc := fun e => by
    change (Function.update w.pc c place e).rpc = _
    by_cases mover : e = c
    · subst mover
      rw [Function.update_self]
      exact same
    · rw [Function.update_of_ne mover]
  term := fun _ => World.land_term kept
  returned := rfl

variable {v : Bool} {r' : ρ}

theorem World.land_inside_iff : (w.land c d r s (.inr v)).Inside e r' ↔ e ≠ c ∧ w.Inside e r' := by
  change (Function.update w.pc c .idle e).rpc = some r' ↔ _
  by_cases mover : e = c
  · subst mover
    rw [Function.update_self]
    exact ⟨nofun, fun ⟨apart, _⟩ => absurd rfl apart⟩
  · rw [Function.update_of_ne mover]
    exact (and_iff_right mover).symm

theorem World.land_returned_iff :
    (w.land c d r s (.inr v)).Returned e r' ↔ e = c ∧ r' = r ∨ w.Returned e r' := by
  constructor
  · rintro ⟨v', given⟩
    rcases List.mem_cons.mp given with now | before
    · cases now
      exact .inl ⟨rfl, rfl⟩
    · exact .inr ⟨v', before⟩
  · rintro (⟨rfl, rfl⟩ | ⟨v', before⟩)
    · exact ⟨v, List.mem_cons_self⟩
    · exact ⟨v', List.mem_cons_of_mem _ before⟩

theorem World.land_entered_iff (inside : w.Inside c r) :
    (w.land c d r s (.inr v)).Entered e r' ↔ w.Entered e r' := by
  rw [World.Entered, World.Entered, World.land_inside_iff, World.land_returned_iff]
  constructor
  · rintro (⟨_, within⟩ | ⟨rfl, rfl⟩ | before)
    · exact .inl within
    · exact .inl inside
    · exact .inr before
  · rintro (within | before)
    · by_cases mover : e = c
      · subst mover
        exact .inr (.inl ⟨rfl, Option.some.inj (within.symm.trans inside)⟩)
      · exact .inl ⟨mover, within⟩
    · exact .inr (.inr before)

theorem land_grows (inside : w.Inside c r) (kept : s.execTerm = w.term d) :
    Grows T w (w.land c d r s (.inr v)) where
  returned := fun _ _ before => World.land_returned_iff.mpr (.inr before)
  entered := fun _ _ => (World.land_entered_iff inside).mpr
  fresh := fun _ _ entered => .inl ((World.land_entered_iff inside).mp entered)
  term := fun _ => (World.land_term kept).ge

/-- A core returns: `finish` is for the leader, `gave` for a follower whose leader never came. -/
theorem Sound.answer (sound : Sound T w) (inside : w.Inside c r) (named : c ∈ T.mask r)
    (kept : s.execTerm = w.term d) (verdict : w.Verdict T r v)
    (finish : c = T.leader r → ∀ e ∈ T.mask r, e ≠ c →
      ¬w.Inside e r ∧ (w.Returned e r ∨ T.due r e < w.term e))
    (gave : ¬w.Entered (T.leader r) r → T.due r (T.leader r) < w.term (T.leader r))
    (stands : ∀ e, Stands T (w.land c d r s (.inr v)) e ((w.land c d r s (.inr v)).pc e)) :
    Sound T (w.land c d r s (.inr v)) := by
  have grows : Grows T w (w.land c d r s (.inr v)) := land_grows inside kept
  refine ⟨stands, fun e r' gone => ?_, fun e r' v' given => ?_, fun e r' gone listed => ?_,
    fun e r' absent gone => ?_⟩
  · rw [World.land_inside_iff]
    rcases World.land_returned_iff.mp gone with ⟨rfl, rfl⟩ | before
    · exact ⟨named, fun within => within.1 rfl⟩
    · exact ⟨(sound.once e r' before).1, fun within => (sound.once e r' before).2 within.2⟩
  · rcases List.mem_cons.mp given with now | before
    · cases now
      exact grows.verdict verdict
    · exact grows.verdict (sound.verdicts e r' v' before)
  · rw [World.land_inside_iff, World.land_returned_iff, World.land_term kept]
    rcases World.land_returned_iff.mp gone with ⟨last, rfl⟩ | before
    · by_cases mover : e = c
      · exact ⟨fun within => within.1 mover, .inl (.inl ⟨mover, rfl⟩)⟩
      · obtain ⟨outside, after⟩ := finish last.symm e listed mover
        exact ⟨fun within => outside within.2, after.imp_left .inr⟩
    · obtain ⟨outside, after⟩ := sound.finished e r' before listed
      exact ⟨fun within => outside within.2, after.imp_left .inr⟩
  · rw [World.land_term kept]
    have away : ¬w.Entered (T.leader r') r' := fun before => absent (grows.entered _ _ before)
    rcases World.land_returned_iff.mp gone with ⟨rfl, rfl⟩ | before
    · exact gave away
    · exact sound.gaveUp e r' away before

end Accesses

end Invariant

end Cyclone.Core.Rendezvous
