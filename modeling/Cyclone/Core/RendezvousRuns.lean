/-
# Core.RendezvousRuns — every access keeps the rendezvous sound

The accesses of `wait_barrier_follower` and `wait_barrier_leader`, one by one, and what they
give over whole runs.

* `verdicts_agree`: if no core raises its term while the leader of an RPC it has left has yet to read
  that term in `check_terms`, and no RPC carries the nonce the memory starts with, then all verdicts
  of an RPC agree and the leader resets the barriers only when nobody is inside the last RPC.
* `leader_disagrees`: the follower is told to execute, the leader is told not to.
-/
import Cyclone.Core.Rendezvous
import Cyclone.Theory.Run

namespace Cyclone.Core.Rendezvous

open Cyclone.Theory (Path exec)

set_option autoImplicit false

variable {n : Nat} {ρ : Type}

/-! ## Accesses of a follower -/

section Followers

variable {T : Traffic n ρ} {w w' : World n ρ} {c e : Fin n} {r : ρ} {s' : CoreStatus n} {place : FollowerAt}

/-- What a follower of `r` may change in the memory of its leader. -/
structure Adds (T : Traffic n ρ) (w : World n ρ) (r : ρ) (s s' : CoreStatus n) : Prop where
  execTerm : s'.execTerm = s.execTerm
  stable : s'.stable = s.stable
  nonce : s'.nonce = s.nonce
  full : ∀ r', w.OpenFor T r' → T.leader r' = T.leader r → s.barrier0 = T.mask r' → s'.barrier0 = T.mask r'

/-- What an access of a follower of `r` to the memory of its leader leaves to the others. -/
structure Touches (T : Traffic n ρ) (w w' : World n ρ) (c : Fin n) (r : ρ) (s' : CoreStatus n) : Prop where
  grows : Grows T w w'
  pcs : ∀ e, e ≠ c → w'.pc e = w.pc e
  terms : ∀ e, w'.term e = w.term e
  entered : ∀ e r', w'.Entered e r' → w.Entered e r'
  returned : ∀ e r', r' ≠ r → w'.Returned e r' → w.Returned e r'
  status : w'.status = Function.update w.status (T.leader r) s'
  adds : Adds T w r (w.status (T.leader r)) s'

theorem Adds.refl (T : Traffic n ρ) (w : World n ρ) (r : ρ) (s : CoreStatus n) : Adds T w r s s :=
  ⟨rfl, rfl, rfl, fun _ _ _ full => full⟩

/-- The RPC a follower takes part in is the one its leader has announced. -/
theorem World.OpenFor.unique {r' : ρ} (isOpen : w.OpenFor T r) (isOpen' : w.OpenFor T r')
    (same : T.leader r' = T.leader r) : r' = r := by
  obtain ⟨at₁, leads, _⟩ := isOpen
  obtain ⟨at₂, leads', _⟩ := isOpen'
  rw [same, leads] at leads'
  cases leads'
  rfl

theorem Sound.leader_of_inside (sound : Sound T w) (inside : w.Inside (T.leader r) r) :
    ∃ at', w.pc (T.leader r) = .lead r at' ∧ Leading T w (T.leader r) r (w.status (T.leader r)) at' := by
  have stands := sound.stands (T.leader r)
  rw [World.Inside] at inside
  cases found : w.pc (T.leader r) with
  | idle => rw [found] at inside; cases inside
  | follow r' at' =>
    rw [found] at inside stands
    cases inside
    exact absurd rfl stands.2.follows
  | lead r' at' =>
    rw [found] at inside stands
    cases inside
    exact ⟨at', rfl, stands⟩

theorem Sound.opened (sound : Sound T w) (isOpen : w.OpenFor T r) :
    ∃ at', w.pc (T.leader r) = .lead r at' ∧ at'.opened = true ∧
      Leading T w (T.leader r) r (w.status (T.leader r)) at' := by
  obtain ⟨at', leads, opened⟩ := isOpen
  have stands := sound.stands (T.leader r)
  rw [leads] at stands
  exact ⟨at', leads, opened, stands⟩

section Access

variable (sound : Sound T w) (here : w.pc c = .follow r place) {next : FollowerAt} {v : Bool}
include sound here

theorem Sound.others (touches : Touches T w w' c r s')
    (leads : ∀ r' at', w.pc (T.leader r) = .lead r' at' →
      Leading T w (T.leader r) r' (w.status (T.leader r)) at' → Leading T w' (T.leader r) r' s' at')
    (other : e ≠ c) : Stands T w' e (w'.pc e) := by
  have elsewhere : ∀ {f}, f ≠ T.leader r → w'.status f = w.status f := fun apart => by
    rw [touches.status, Function.update_of_ne apart]
  have there : w'.status (T.leader r) = s' := by rw [touches.status, Function.update_self]
  rw [touches.pcs e other]
  refine (sound.stands e).frame touches.grows (touches.terms e) (fun still => ?_)
    (fun r' at' _ follow => ?_) fun r' at' found leading => ?_
  · by_cases host : e = T.leader r
    · subst host
      rw [there]
      exact ⟨touches.adds.stable ▸ still.even, fun r' named same =>
        still.nonce r' named (touches.adds.nonce ▸ same)⟩
    · rw [elsewhere host]
      exact still
  · have kept : w.OpenFor T r' → w'.OpenFor T r' :=
      World.OpenFor.of_other touches.pcs (by simp [here])
    by_cases host : T.leader r' = T.leader r
    · rw [host] at follow ⊢
      rw [there]
      exact (follow.board ⟨touches.adds.stable.ge, fun _ _ => touches.adds.nonce, fun isOpen full =>
        touches.adds.full r' isOpen host full⟩).grow touches.grows kept
    · rw [elsewhere host]
      exact follow.grow touches.grows kept
  · by_cases host : e = T.leader r
    · subst host
      rw [there]
      exact leads r' at' found leading
    · rw [elsewhere host]
      have apart : r' ≠ r := fun same => host (same ▸ leading.leads)
      exact leading.grow touches.grows (touches.terms e) (fun f => touches.returned f r' apart)
        fun _ _ _ f entered _ => .inr ⟨touches.entered f r' entered, touches.terms f⟩

theorem Sound.follower : Still T w c (w.status c) ∧ Following T w c r place := by
  have stands := sound.stands c
  rw [here] at stands
  exact stands

/-- A follower goes on to its next access. -/
theorem Sound.go (adds : Adds T w r (w.status (T.leader r)) s')
    (leads : ∀ r' at', w.pc (T.leader r) = .lead r' at' →
      Leading T w (T.leader r) r' (w.status (T.leader r)) at' → Leading T w (T.leader r) r' s' at')
    (follow : FollowAt T w r s' next) :
    Sound T (w.land c (T.leader r) r s' (.inl (.follow r next))) := by
  obtain ⟨still, following⟩ := sound.follower here
  have alike : Alike w (w.land c (T.leader r) r s' (.inl (.follow r next))) :=
    land_alike (by rw [here]; rfl) adds.execTerm
  have pcs : ∀ e, e ≠ c → Function.update w.pc c (.follow r next) e = w.pc e := fun e other =>
    Function.update_of_ne other _ _
  refine sound.alike alike fun e => ?_
  by_cases mover : e = c
  · subst mover
    change Stands T _ e (Function.update w.pc e (.follow r next) e)
    rw [Function.update_self]
    refine ⟨?_, following.named, following.follows, (alike.term e).trans following.level, ?_⟩
    · change Still T _ e (Function.update w.status (T.leader r) s' e)
      rw [Function.update_of_ne following.follows]
      exact still.grow alike.grows
    · change FollowAt T _ r (Function.update w.status (T.leader r) s' (T.leader r)) next
      rw [Function.update_self]
      exact follow.grow alike.grows (World.OpenFor.of_other pcs (by simp [here]))
  · exact sound.others here ⟨alike.grows, pcs, alike.term, fun _ _ => alike.entered_iff.mp,
      fun _ _ _ => alike.returned_iff.mp, rfl, adds⟩
      (fun r' at' found leading => alike.leading (leads r' at' found leading)) mover

/-- A follower returns. -/
theorem Sound.goes (adds : Adds T w r (w.status (T.leader r)) s') (verdict : w.Verdict T r v)
    (gave : ¬w.Entered (T.leader r) r → T.due r (T.leader r) < w.term (T.leader r))
    (leads : ∀ r' at', w.pc (T.leader r) = .lead r' at' →
      Leading T w (T.leader r) r' (w.status (T.leader r)) at' →
      Leading T (w.land c (T.leader r) r s' (.inr v)) (T.leader r) r' s' at') :
    Sound T (w.land c (T.leader r) r s' (.inr v)) := by
  obtain ⟨still, following⟩ := sound.follower here
  have inside : w.Inside c r := by rw [World.Inside, here]; rfl
  have grows : Grows T w (w.land c (T.leader r) r s' (.inr v)) := land_grows inside adds.execTerm
  refine sound.answer inside following.named adds.execTerm verdict
    (fun leader => absurd leader following.follows) gave fun e => ?_
  by_cases mover : e = c
  · subst mover
    change Stands T _ e (Function.update w.pc e .idle e)
    rw [Function.update_self]
    change Still T _ e (Function.update w.status (T.leader r) s' e)
    rw [Function.update_of_ne following.follows]
    exact still.grow grows
  · refine sound.others here ⟨grows, fun e other => Function.update_of_ne other _ _,
      fun _ => World.land_term adds.execTerm, fun _ _ => (World.land_entered_iff inside).mp,
      fun f r' apart gone => ?_, rfl, adds⟩ leads mover
    exact (World.land_returned_iff.mp gone).resolve_left fun now => apart now.2

/-- A follower that only reads. -/
theorem Sound.reads (follow : FollowAt T w r (w.status (T.leader r)) next) :
    Sound T (w.land c (T.leader r) r (w.status (T.leader r)) (.inl (.follow r next))) :=
  sound.go here (.refl ..) (fun _ _ _ leading => leading) follow

/-- While a follower is inside, its leader has not left. -/
theorem Sound.leader_inside (entered : w.Entered (T.leader r) r) : w.Inside (T.leader r) r := by
  refine entered.resolve_right fun gone => ?_
  refine (sound.finished c r gone (sound.follower here).2.named).1 ?_
  rw [World.Inside, here]
  rfl

/-- The leader's term is past the snapshot: it never comes. -/
theorem Sound.gives_up (ahead : T.due r (T.leader r) < w.term (T.leader r)) :
    Sound T (w.land c (T.leader r) r (w.status (T.leader r)) (.inr false)) := by
  have absent : ¬w.Entered (T.leader r) r := fun entered => by
    obtain ⟨_, _, leading⟩ := sound.leader_of_inside (sound.leader_inside here entered)
    have level := leading.level
    omega
  have inside : w.Inside c r := by rw [World.Inside, here]; rfl
  refine sound.goes here (.refl ..) ⟨T.leader r, (T.rpc r).leads.1, absent, ahead⟩ (fun _ => ahead)
    fun r' at' found leading => ?_
  have apart : r' ≠ r := fun same => absent (.inl (by rw [World.Inside, found, same]; rfl))
  refine leading.grow (land_grows inside rfl) (World.land_term rfl) (fun f gone => ?_)
    fun _ _ _ f entered _ => .inr ⟨(World.land_entered_iff inside).mp entered, World.land_term rfl⟩
  exact (World.land_returned_iff.mp gone).resolve_left fun now => apart now.2

/-- The stable nonce is that of the RPC the leader has announced. -/
theorem Sound.announced (even : (w.status (T.leader r)).stable % 2 = 0)
    (same : (w.status (T.leader r)).nonce = (T.rpc r).nonce) : w.OpenFor T r := by
  have present : ¬Still T w (T.leader r) (w.status (T.leader r)) := fun still => by
    have gone := still.nonce r rfl same
    exact (sound.once _ r gone).2 (sound.leader_inside here (.inr gone))
  have stands := sound.stands (T.leader r)
  cases found : w.pc (T.leader r) with
  | idle =>
    rw [found] at stands
    exact absurd stands present
  | follow r' at' =>
    rw [found] at stands
    exact absurd stands.1 present
  | lead r' at' =>
    rw [found] at stands
    have lead := stands.lead
    have announced : at'.opened = true → w.OpenFor T r := fun isOpen => by
      have current := (lead.opened isOpen).nonce
      have one : r' = r := T.distinct (current.symm.trans same)
      exact ⟨at', one ▸ found, isOpen⟩
    cases at' with
    | begin => exact absurd lead present
    | copy i => have odd := lead.1; omega
    | clear0 => have odd := lead.odd; omega
    | clear1 => have odd := lead.1.odd; omega
    | publish => have odd := lead.1.odd; omega
    | _ => exact announced rfl

end Access

theorem Sound.arrives (sound : Sound T w) (here : w.pc c = .follow r .arrive) :
    Sound T (w.land c (T.leader r) r
      { w.status (T.leader r) with barrier0 := insert c (w.status (T.leader r)).barrier0 }
      (.inl (.follow r .await))) := by
  have following := (sound.follower here).2
  have isOpen : w.OpenFor T r := following.follow
  have inside : w.Inside c r := by rw [World.Inside, here]; rfl
  have full : ∀ r', w.OpenFor T r' → T.leader r' = T.leader r →
      (w.status (T.leader r)).barrier0 = T.mask r' →
      insert c (w.status (T.leader r)).barrier0 = T.mask r' := fun r' isOpen' same full => by
    cases isOpen.unique isOpen' same
    rw [full]
    exact Finset.insert_eq_of_mem following.named
  refine sound.go here ⟨rfl, rfl, rfl, full⟩ (fun r' at' found leading => ?_) isOpen
  obtain ⟨at₁, leads, opened, _⟩ := sound.opened isOpen
  cases leads.symm.trans found
  refine ⟨leading.leads, leading.level,
    fun f gone => ⟨opened, full r isOpen rfl (leading.passed f gone).2⟩,
    leading.lead.barriers opened rfl (full r isOpen rfl) ?_⟩
  have before := leading.lead.opened opened
  refine ⟨before.even, before.nonce, fun f among => ?_, before.denied, before.left⟩
  rcases Finset.mem_insert.mp among with rfl | among
  · exact ⟨following.named, .inl (.inl inside)⟩
  · exact before.arrived f among

theorem Sound.departs {v : Bool} (sound : Sound T w) (here : w.pc c = .follow r (.depart v)) :
    Sound T (w.land c (T.leader r) r
      { w.status (T.leader r) with barrier1 := insert c (w.status (T.leader r)).barrier1 } (.inr v)) := by
  have following := (sound.follower here).2
  obtain ⟨isOpen, full, verdict⟩ := following.follow
  have inside : w.Inside c r := by rw [World.Inside, here]; rfl
  obtain ⟨at₁, leads, opened, _⟩ := sound.opened isOpen
  refine sound.goes here ⟨rfl, rfl, rfl, fun _ _ _ full => full⟩ verdict (fun absent => ?_)
    fun r' at' found leading => ?_
  · exact absurd (.inl (by rw [World.Inside, leads]; rfl)) absent
  cases leads.symm.trans found
  have kept : CoreStatus.execTerm { w.status (T.leader r) with
      barrier1 := insert c (w.status (T.leader r)).barrier1 } = w.term (T.leader r) := rfl
  refine ⟨leading.leads, (World.land_term kept).trans leading.level, fun _ _ => ⟨opened, full⟩, ?_⟩
  have after := leading.lead.grow (land_grows (v := v) inside kept) fun _ _ _ f entered _ =>
    .inr ⟨(World.land_entered_iff inside).mp entered, World.land_term kept⟩
  refine after.barriers opened rfl id ?_
  have before := after.opened opened
  refine ⟨before.even, before.nonce, before.arrived, before.denied, fun f out => ?_⟩
  rcases Finset.mem_insert.mp out with rfl | out
  · exact .inr (.inl (World.land_returned_iff.mpr (.inl ⟨rfl, rfl⟩)))
  · exact before.left f out

/-- **A follower's access.** -/
theorem Sound.follows (sound : Sound T w) (here : w.pc c = .follow r place) {next : FollowerAt ⊕ Bool}
    (access : waitBarrierFollower (T.rpc r) c (T.due r (T.leader r)) (w.status (T.leader r)) place =
      (s', next)) :
    Sound T (w.land c (T.leader r) r s' (next.map (.follow r) id)) := by
  have follow := (sound.follower here).2.follow
  cases place with
  | poll =>
    rw [waitBarrierFollower] at access
    cases access
    split
    · rename_i ahead
      exact sound.gives_up here ahead
    · exact sound.reads here trivial
  | readStable =>
    cases access
    refine sound.reads here ?_
    split
    · trivial
    · exact ⟨by omega, le_rfl, fun _ j before => absurd before (Nat.not_lt_zero _)⟩
  | compare stable i =>
    obtain ⟨even, old, same⟩ := follow
    rw [waitBarrierFollower] at access
    split at access
    · rename_i inNonce
      cases access
      refine sound.reads here ?_
      split
      · rename_i equal
        refine ⟨even, old, fun current j before => ?_⟩
        rcases Nat.lt_succ_iff_lt_or_eq.mp before with before | last
        · exact same current j before
        · have byte : j = ⟨i, inNonce⟩ := Fin.ext last
          rw [byte]
          exact equal
      · trivial
    · cases access
      refine sound.reads here ?_
      split
      · rename_i current
        refine sound.announced here (by omega) (funext fun j => ?_)
        exact same current j (by omega)
      · trivial
  | arrive =>
    cases access
    exact sound.arrives here
  | await =>
    cases access
    refine sound.reads here ?_
    split
    · rename_i full
      exact ⟨follow, full⟩
    · exact follow
  | readSuccess =>
    cases access
    obtain ⟨isOpen, full⟩ := follow
    refine sound.reads here ⟨isOpen, full, ?_⟩
    obtain ⟨at', _, opened, leading⟩ := sound.opened isOpen
    have memory := leading.lead.opened opened
    cases told : (w.status (T.leader r)).success with
    | false => exact memory.denied told
    | true =>
      intro e named
      refine (memory.arrived e (full.symm ▸ named)).2.resolve_right ?_
      simp [told]
  | depart v =>
    cases access
    exact sound.departs here

end Followers

/-! ## Accesses of a leader -/

section Leaders

variable {T : Traffic n ρ} {w w' : World n ρ} {d e : Fin n} {r : ρ} {s' : CoreStatus n} {place : LeaderAt n}

theorem Sound.leader (sound : Sound T w) (here : w.pc d = .lead r place) :
    Leading T w d r (w.status d) place := by
  have stands := sound.stands d
  rw [here] at stands
  exact stands

/-- A core inside an RPC is named in its mask and at its term. -/
theorem Sound.inside (sound : Sound T w) (inside : w.Inside e r) :
    e ∈ T.mask r ∧ w.term e = T.due r e := by
  have stands := sound.stands e
  rw [World.Inside] at inside
  cases found : w.pc e with
  | idle => rw [found] at inside; cases inside
  | follow r' at' =>
    rw [found] at inside stands
    cases inside
    exact ⟨stands.2.named, stands.2.level⟩
  | lead r' at' =>
    rw [found] at inside stands
    cases inside
    refine ⟨?_, stands.level⟩
    rw [stands.leads]
    exact (T.rpc r).leads.1

theorem World.OpenFor.of_lead {r' : ρ} (here : w.pc d = .lead r place) (isOpen : w.OpenFor T r')
    (same : T.leader r' = d) : r' = r ∧ place.opened = true := by
  obtain ⟨at', leads, opened⟩ := isOpen
  rw [same, here] at leads
  cases leads
  exact ⟨rfl, opened⟩

/-- The leader goes on to its next access. -/
theorem Sound.leads_on {next : LeaderAt n} (sound : Sound T w) (here : w.pc d = .lead r place)
    (kept : s'.execTerm = w.term d) (forward : (w.status d).stable ≤ s'.stable)
    (nonce : s'.stable = (w.status d).stable → (w.status d).stable % 2 = 0 →
      s'.nonce = (w.status d).nonce)
    (full : place.opened = true → (w.status d).barrier0 = T.mask r → s'.barrier0 = T.mask r)
    (opens : place.opened = true → next.opened = true) (lead : LeadAt T w d r s' next) :
    Sound T (w.land d d r s' (.inl (.lead r next))) := by
  have leading := sound.leader here
  have alike : Alike w (w.land d d r s' (.inl (.lead r next))) := land_alike (by rw [here]; rfl) kept
  have pcs : ∀ e, e ≠ d → Function.update w.pc d (.lead r next) e = w.pc e := fun e other =>
    Function.update_of_ne other _ _
  have boards : ∀ e, e ≠ d → Function.update w.status d s' e = w.status e := fun e other =>
    Function.update_of_ne other _ _
  refine sound.alike alike fun e => ?_
  by_cases mover : e = d
  · subst mover
    change Stands T _ e (Function.update w.pc e (.lead r next) e)
    rw [Function.update_self]
    change Leading T _ e r (Function.update w.status e s' e) next
    rw [Function.update_self]
    exact alike.leading ⟨leading.leads, leading.level, fun f gone =>
      ⟨opens (leading.passed f gone).1, full (leading.passed f gone).1 (leading.passed f gone).2⟩, lead⟩
  · change Stands T _ e (Function.update w.pc d (.lead r next) e)
    rw [pcs e mover]
    refine (sound.stands e).frame alike.grows (alike.term e) (fun still => ?_)
      (fun r' at' _ follow => ?_) fun r' at' _ other => ?_
    · change Still T w e (Function.update w.status d s' e)
      rw [boards e mover]
      exact still
    · change FollowAt T _ r' (Function.update w.status d s' (T.leader r')) at'
      by_cases host : T.leader r' = d
      · rw [host, Function.update_self]
        rw [host] at follow
        refine (follow.board ⟨forward, nonce, fun isOpen whole => ?_⟩).grow alike.grows fun isOpen => ?_
        · obtain ⟨rfl, opened⟩ := isOpen.of_lead here host
          exact full opened whole
        · obtain ⟨rfl, opened⟩ := isOpen.of_lead here host
          refine ⟨next, ?_, opens opened⟩
          change Function.update w.pc d (.lead r' next) (T.leader r') = _
          rw [host, Function.update_self]
      · rw [boards _ host]
        refine follow.grow alike.grows fun ⟨at₁, leads, opened⟩ => ⟨at₁, ?_, opened⟩
        exact (pcs _ host).trans leads
    · change Leading T _ e r' (Function.update w.status d s' e) at'
      rw [boards e mover]
      exact alike.leading other

variable {failed : Finset (Fin n)}

/-- Everybody is out when the leader has seen `barrier[1]` full. -/
theorem Sound.emptied (sound : Sound T w) (here : w.pc d = .lead r (.drain failed))
    (out : (w.status d).barrier1 = T.mask r) (named : e ∈ T.mask r) (other : e ≠ d) :
    ¬w.Inside e r ∧ (w.Returned e r ∨ T.due r e < w.term e) := by
  rcases (sound.leader here).lead.1.left e (out.symm ▸ named) with same | gone | skips
  · exact absurd same other
  · exact ⟨(sound.once e r gone).2, .inl gone⟩
  · exact ⟨fun inside => skips.1 (.inl inside), .inr skips.2⟩

theorem Sound.verdict_of_drain (sound : Sound T w) (here : w.pc d = .lead r (.drain failed)) :
    w.Verdict T r (decide (failed = ∅)) := by
  obtain ⟨opened, weighed, full⟩ := (sound.leader here).lead
  by_cases none : failed = ∅
  · rw [decide_eq_true none]
    intro e named
    exact (opened.arrived e (full.symm ▸ named)).2.resolve_right fun denied => weighed.denial denied none
  · rw [decide_eq_false none]
    obtain ⟨e, found⟩ := Finset.nonempty_iff_ne_empty.mpr none
    exact ⟨e, weighed.failing e found⟩

theorem Sound.drained (sound : Sound T w) (here : w.pc d = .lead r (.drain failed))
    (out : (w.status d).barrier1 = T.mask r) :
    Sound T (w.land d d r (w.status d) (.inr (decide (failed = ∅)))) := by
  have leading := sound.leader here
  have inside : w.Inside d r := by rw [World.Inside, here]; rfl
  have kept : (w.status d).execTerm = w.term d := rfl
  have named : d ∈ T.mask r := (sound.inside inside).1
  have grows : Grows T w (w.land d d r (w.status d) (.inr (decide (failed = ∅)))) := land_grows inside kept
  have boards : Function.update w.status d (w.status d) = w.status := Function.update_eq_self d _
  refine sound.answer inside named kept (sound.verdict_of_drain here)
    (fun _ e listed other => sound.emptied here out listed other) (fun absent => ?_) fun e => ?_
  · rw [← leading.leads] at absent
    exact absurd (.inl inside) absent
  by_cases mover : e = d
  · subst mover
    change Stands T _ e (Function.update w.pc e .idle e)
    rw [Function.update_self]
    change Still T _ e (Function.update w.status e (w.status e) e)
    rw [boards]
    have opened := leading.lead.1
    refine ⟨opened.even, fun r' _ same => ?_⟩
    have one : r' = r := T.distinct (same.symm.trans opened.nonce)
    exact World.land_returned_iff.mpr (.inl ⟨rfl, one⟩)
  · change Stands T _ e (Function.update w.pc d .idle e)
    rw [Function.update_of_ne mover]
    refine (sound.stands e).frame grows (World.land_term kept) (fun still => ?_)
      (fun r' at' found follow => ?_) fun r' at' _ other => ?_
    · change Still T w e (Function.update w.status d (w.status d) e)
      rw [boards]
      exact still
    · change FollowAt T _ r' (Function.update w.status d (w.status d) (T.leader r')) at'
      rw [boards]
      refine follow.grow grows ?_
      rintro ⟨at₁, leads, opened⟩
      refine ⟨at₁, ?_, opened⟩
      have apart : T.leader r' ≠ d := fun host => by
        obtain ⟨rfl, _⟩ := World.OpenFor.of_lead here ⟨at₁, leads, opened⟩ host
        refine (sound.emptied here out (sound.follower found).2.named mover).1 ?_
        rw [World.Inside, found]
        rfl
      change Function.update w.pc d .idle (T.leader r') = _
      rw [Function.update_of_ne apart]
      exact leads
    · change Leading T _ e r' (Function.update w.status d (w.status d) e) at'
      rw [boards]
      have apart : r' ≠ r := fun same => mover (other.leads.trans (same ▸ leading.leads.symm))
      refine other.grow grows (World.land_term kept) (fun f gone => ?_)
        fun _ _ _ f entered _ => .inr ⟨(World.land_entered_iff inside).mp entered, World.land_term kept⟩
      exact (World.land_returned_iff.mp gone).resolve_left fun now => apart now.2

/-- Before `check_terms` every core that has entered still is inside, at its term. -/
theorem Sound.scan_start (sound : Sound T w) (here : w.pc d = .lead r (.check failed))
    (missing : (w.status d).barrier0 ≠ T.mask r) :
    Scanning T w r (w.status d) 0 ∅ where
  failing := fun e found => absurd (Finset.mem_inter.mp found).1 (Finset.notMem_empty e)
  pending := fun e entered _ => by
    rcases entered with inside | gone
    · exact (sound.inside inside).2
    · exact absurd ((sound.leader here).passed e gone).2 missing
  again := fun denied => by
    obtain ⟨e, named, skips⟩ := (sound.leader here).lead.1.denied denied
    exact ⟨e, named, skips.2, fun before => absurd before (Nat.not_lt_zero _)⟩

variable {s : CoreStatus n} {i : Nat}

/-- `check_terms` reads one core. -/
theorem Scanning.next (scanning : Scanning T w r s i failed) (isCore : i < n) :
    Scanning T w r s (i + 1)
      (if T.due r ⟨i, isCore⟩ < w.term ⟨i, isCore⟩ then insert ⟨i, isCore⟩ failed else failed) where
  failing := fun e found => by
    obtain ⟨among, named⟩ := Finset.mem_inter.mp found
    split at among
    · rename_i ahead
      rcases Finset.mem_insert.mp among with rfl | among
      · refine ⟨named, fun entered => ?_, ahead⟩
        have level := scanning.pending _ entered le_rfl
        omega
      · exact scanning.failing e (Finset.mem_inter.mpr ⟨among, named⟩)
    · exact scanning.failing e (Finset.mem_inter.mpr ⟨among, named⟩)
  pending := fun e entered unread => scanning.pending e entered (by omega)
  again := fun denied => by
    obtain ⟨e, named, ahead, found⟩ := scanning.again denied
    refine ⟨e, named, ahead, fun before => ?_⟩
    rcases Nat.lt_succ_iff_lt_or_eq.mp before with before | last
    · split
      · exact Finset.mem_insert_of_mem (found before)
      · exact found before
    · have core : e = ⟨i, isCore⟩ := Fin.ext last
      rw [core] at ahead
      rw [if_pos ahead, core]
      exact Finset.mem_insert_self _ _

/-- `check_terms` has read every core: a denial is among the failed. -/
theorem Scanning.found (scanning : Scanning T w r s i failed) (isEnd : ¬i < n)
    (denied : s.success = false) : failed ∩ T.mask r ≠ ∅ := by
  obtain ⟨e, named, _, found⟩ := scanning.again denied
  have among := Finset.mem_inter.mpr ⟨found (by omega), named⟩
  exact Finset.ne_empty_of_mem among

/-- The RPC is announced: both barriers are empty. -/
theorem Opened.announce (writing : Writing T r s) (empty0 : s.barrier0 = ∅)
    (empty1 : s.barrier1 = ∅) : Opened T w d r { s with stable := s.stable + 1 } where
  even := by
    have odd := writing.odd
    change (s.stable + 1) % 2 = 0
    omega
  nonce := writing.nonce
  arrived := fun e among => by
    change e ∈ s.barrier0 at among
    rw [empty0] at among
    exact absurd among (Finset.notMem_empty e)
  denied := fun denied => by
    change s.success = false at denied
    rw [writing.success] at denied
    cases denied
  left := fun e among => by
    change e ∈ s.barrier1 at among
    rw [empty1] at among
    exact absurd among (Finset.notMem_empty e)

/-- The leader has copied one more byte of the nonce. -/
theorem LeadAt.copy (lead : LeadAt T w d r s (.copy i)) (inNonce : i < 14) :
    LeadAt T w d r
      { s with nonce := Function.update s.nonce ⟨i, inNonce⟩ ((T.rpc r).nonce ⟨i, inNonce⟩) }
      (.copy (i + 1)) := by
  refine ⟨lead.1, fun j before => ?_⟩
  change Function.update s.nonce ⟨i, inNonce⟩ _ j = _
  by_cases last : j = ⟨i, inNonce⟩
  · rw [last, Function.update_self]
  · rw [Function.update_of_ne last]
    refine lead.2 j ?_
    have apart : j.val ≠ i := fun same => last (Fin.ext same)
    omega

/-- The leader is in `barrier[0]` itself. -/
theorem Opened.join (opened : Opened T w d r s) (named : d ∈ T.mask r) (inside : w.Inside d r) :
    Opened T w d r { s with barrier0 := insert d s.barrier0 } :=
  { opened with
    arrived := fun e among => by
      rcases Finset.mem_insert.mp among with rfl | among
      · exact ⟨named, .inl (.inl inside)⟩
      · exact opened.arrived e among }

theorem Opened.deny (opened : Opened T w d r s) (failing : Failing T w r failed)
    (some : failed ≠ ∅) : Opened T w d r { s with success := false } :=
  { opened with
    arrived := fun e among => ⟨(opened.arrived e among).1, .inr rfl⟩
    denied := fun _ => by
      obtain ⟨e, found⟩ := Finset.nonempty_iff_ne_empty.mpr some
      exact ⟨e, failing e found⟩ }

/-- The leader stands in for the failed cores in `barrier[0]`. -/
theorem Opened.mark (opened : Opened T w d r s) (failing : Failing T w r failed)
    (denied : s.success = false) : Opened T w d r { s with barrier0 := s.barrier0 ∪ failed } :=
  { opened with
    arrived := fun e among => by
      rcases Finset.mem_union.mp among with among | found
      · exact opened.arrived e among
      · exact ⟨(failing e found).1, .inr denied⟩ }

/-- The leader leaves, or lets the failed cores out. -/
theorem Opened.leave (opened : Opened T w d r s) {out : Finset (Fin n)}
    (leaves : ∀ e ∈ out, e ∈ s.barrier1 ∨ e = d ∨ w.Skips T e r) :
    Opened T w d r { s with barrier1 := out } :=
  { opened with
    left := fun e among => by
      rcases leaves e among with before | now
      · exact opened.left e before
      · exact now.imp_right .inr }

/-- A leader goes on that has not announced itself. -/
theorem Sound.leads_closed {next : LeaderAt n} (sound : Sound T w) (here : w.pc d = .lead r place)
    (closed : place.opened = false) (kept : s'.execTerm = w.term d)
    (forward : (w.status d).stable ≤ s'.stable)
    (nonce : s'.stable = (w.status d).stable → (w.status d).stable % 2 = 0 →
      s'.nonce = (w.status d).nonce) (lead : LeadAt T w d r s' next) :
    Sound T (w.land d d r s' (.inl (.lead r next))) := by
  refine sound.leads_on here kept forward nonce (fun opened => ?_) (fun opened => ?_) lead <;>
    cases closed.symm.trans opened

section Access

variable (sound : Sound T w) (here : w.pc d = .lead r place) {next : LeaderAt n ⊕ Bool}
  (access : waitBarrierLeader (T.rpc r) d (T.due r) w.term (w.status d) place = (s', next))

include sound here access

/-- A leader's access up to the second increment of `stable`. -/
theorem Sound.leads_writing (closed : place.opened = false) :
    Sound T (w.land d d r s' (next.map (.lead r) id)) := by
  have lead := (sound.leader here).lead
  cases place with
  | begin =>
    cases access
    have even := lead.even
    refine sound.leads_closed here rfl rfl (Nat.le_succ _) (fun same => ?_)
      ⟨?_, fun _ before => absurd before (Nat.not_lt_zero _)⟩
    · change (w.status d).stable + 1 = _ at same
      omega
    · change ((w.status d).stable + 1) % 2 = 1
      omega
  | copy i =>
    have odd := lead.1
    rw [waitBarrierLeader] at access
    split at access
    · rename_i inNonce
      cases access
      exact sound.leads_closed here rfl rfl le_rfl (fun _ even => by omega) (lead.copy inNonce)
    · cases access
      exact sound.leads_closed here rfl rfl le_rfl (fun _ _ => rfl)
        ⟨odd, funext fun j => lead.2 j (by omega), rfl⟩
  | clear0 =>
    cases access
    exact sound.leads_closed here rfl rfl le_rfl (fun _ _ => rfl)
      ⟨⟨lead.odd, lead.nonce, lead.success⟩, rfl⟩
  | clear1 =>
    cases access
    exact sound.leads_closed here rfl rfl le_rfl (fun _ _ => rfl)
      ⟨⟨lead.1.odd, lead.1.nonce, lead.1.success⟩, lead.2, rfl⟩
  | publish =>
    cases access
    obtain ⟨writing, empty0, empty1⟩ := lead
    refine sound.leads_closed here rfl rfl (Nat.le_succ _) (fun same => ?_)
      ⟨Opened.announce writing empty0 empty1, writing.success⟩
    change (w.status d).stable + 1 = _ at same
    omega
  | _ => cases closed

/-- A leader's access while it collects the followers and lets them out. -/
theorem Sound.leads_opened (isOpen : place.opened = true) :
    Sound T (w.land d d r s' (next.map (.lead r) id)) := by
  have inside : w.Inside d r := by rw [World.Inside, here]; rfl
  have named : d ∈ T.mask r := (sound.inside inside).1
  have lead := (sound.leader here).lead
  cases place with
  | join =>
    cases access
    obtain ⟨opened, granted⟩ := lead
    refine sound.leads_on here rfl le_rfl (fun _ _ => rfl) (fun _ full => ?_) id
      ⟨opened.join named inside, fun e found => absurd found (Finset.notMem_empty e),
        fun denied => ?_⟩
    · change insert d (w.status d).barrier0 = _
      rw [full]
      exact Finset.insert_eq_of_mem named
    · cases granted.symm.trans denied
  | check failed =>
    cases access
    refine sound.leads_on here rfl le_rfl (fun _ _ => rfl) (fun _ full => full) (fun _ => ?_) ?_
    · split <;> rfl
    · split
      · rename_i full
        exact ⟨lead.1, lead.2, full⟩
      · rename_i missing
        exact ⟨lead.1, sound.scan_start here missing⟩
  | scan i failed =>
    obtain ⟨opened, scanning⟩ := lead
    rw [waitBarrierLeader] at access
    split at access
    · rename_i isCore
      cases access
      exact sound.leads_on here rfl le_rfl (fun _ _ => rfl) (fun _ full => full) id
        ⟨opened, scanning.next isCore⟩
    · rename_i isEnd
      cases access
      refine sound.leads_on here rfl le_rfl (fun _ _ => rfl) (fun _ full => full) (fun _ => ?_) ?_
      · split <;> rfl
      · split
        · rename_i none
          exact ⟨opened, fun e found => absurd found (Finset.notMem_empty e),
            fun denied => absurd none (scanning.found isEnd denied)⟩
        · rename_i some
          exact ⟨opened, scanning.failing, some⟩
  | deny failed =>
    cases access
    obtain ⟨opened, failing, some⟩ := lead
    exact sound.leads_on here rfl le_rfl (fun _ _ => rfl) (fun _ full => full) id
      ⟨opened.deny failing some, failing, some, rfl⟩
  | mark failed =>
    cases access
    obtain ⟨opened, failing, some, denied⟩ := lead
    refine sound.leads_on here rfl le_rfl (fun _ _ => rfl) (fun _ full => ?_) id
      ⟨opened.mark failing denied, failing, fun _ => some⟩
    change (w.status d).barrier0 ∪ failed = _
    rw [full]
    exact Finset.union_eq_left.mpr fun e found => (failing e found).1
  | leave failed =>
    cases access
    obtain ⟨opened, weighed, full⟩ := lead
    refine sound.leads_on here rfl le_rfl (fun _ _ => rfl) (fun _ full => full) id
      ⟨opened.leave fun e out => ?_, ⟨weighed.failing, weighed.denial⟩, full⟩
    exact (Finset.mem_insert.mp out).symm.imp_right .inl
  | leaveFailed failed =>
    cases access
    obtain ⟨opened, weighed, full⟩ := lead
    refine sound.leads_on here rfl le_rfl (fun _ _ => rfl) (fun _ full => full) id
      ⟨opened.leave fun e out => ?_, ⟨weighed.failing, weighed.denial⟩, full⟩
    exact (Finset.mem_union.mp out).imp_right fun found => .inr (weighed.failing e found).2
  | drain failed =>
    rw [waitBarrierLeader] at access
    cases access
    split
    · rename_i out
      exact sound.drained here out
    · exact sound.leads_on here rfl le_rfl (fun _ _ => rfl) (fun _ full => full) id lead
  | _ => cases isOpen

/-- **A leader's access.** -/
theorem Sound.leads : Sound T (w.land d d r s' (next.map (.lead r) id)) := by
  cases isOpen : place.opened with
  | false => exact sound.leads_writing here access isOpen
  | true => exact sound.leads_opened here access isOpen

end Access

end Leaders

/-! ## Runs -/

section Runs

variable {T : Traffic n ρ} {w w' : World n ρ}

/-- The leader is about to clear `barrier[0]` or `barrier[1]`. -/
def World.Resetting (w : World n ρ) (d : Fin n) : Prop :=
  ∃ r, w.pc d = .lead r .clear0 ∨ w.pc d = .lead r .clear1

theorem Sound.start (unused : ∀ r, (T.rpc r).nonce ≠ fun _ => 0) : Sound T (World.start : World n ρ) where
  stands := fun _ => ⟨rfl, fun r _ same => absurd same.symm (unused r)⟩
  once := fun _ _ ⟨_, given⟩ => nomatch given
  verdicts := fun _ _ _ given => nomatch given
  finished := fun _ _ ⟨_, given⟩ => nomatch given
  gaveUp := fun _ _ _ ⟨_, given⟩ => nomatch given

variable [DecidableEq ρ]

/-- **One step keeps the invariant.** -/
theorem Sound.step {act : Act n ρ} (sound : Sound T w) (settled : Settled T w act)
    (taken : step T w act = some w') : Sound T w' := by
  cases act with
  | enter c r =>
    rw [Rendezvous.step] at taken
    split at taken
    · rename_i admitted
      obtain ⟨idle, named, level, new⟩ := admitted
      cases taken
      have fresh : ¬w.Returned c r := fun ⟨v, given⟩ => new v given
      have still : Still T w c (w.status c) := by
        have stands := sound.stands c
        rw [idle] at stands
        exact stands
      split
      · rename_i leads
        have absent : ¬w.Entered (T.leader r) r := by
          rw [← leads]
          rintro (inside | gone)
          · rw [World.Inside, idle] at inside
            cases inside
          · exact fresh gone
        refine sound.enter idle level fresh rfl ⟨leads, level, fun e gone => ?_,
          still.grow (enter_grows idle level rfl)⟩
        have ahead := sound.gaveUp e r absent gone
        rw [← leads] at ahead
        omega
      · rename_i follows
        exact sound.enter idle level fresh rfl ⟨still.grow (enter_grows idle level rfl), named, follows,
          level, trivial⟩
    · cases taken
  | raise c term =>
    rw [Rendezvous.step] at taken
    split at taken
    · rename_i admitted
      cases taken
      exact sound.raise admitted.1 admitted.2 settled
    · cases taken
  | advance c =>
    rw [Rendezvous.step] at taken
    split at taken
    · cases taken
    · rename_i r place here
      cases taken
      exact sound.follows here rfl
    · rename_i r place here
      cases taken
      exact sound.leads here rfl

/-- **The rendezvous agrees.**  If no RPC carries the nonce the memory starts with and the terms are
raised as `Settled` says, then all cores that return from an RPC return the same verdict, and when a
leader resets the barriers nobody is inside an RPC it has left. -/
theorem verdicts_agree (unused : ∀ r, (T.rpc r).nonce ≠ fun _ => 0)
    (run : Path (step T) (Settled T) World.start w) :
    (∀ c c' r v v', (c, r, v) ∈ w.returned → (c', r, v') ∈ w.returned → v = v') ∧
      ∀ d, w.Resetting d → ∀ c r, T.leader r = d → w.Returned d r → ¬w.Inside c r := by
  have sound : Sound T w := run.keeps (Sound.start unused) fun _ _ _ sound settled taken =>
    sound.step settled taken
  refine ⟨fun c c' r v v' first second => ?_, fun d _ c r leads gone inside => ?_⟩
  · exact (sound.verdicts c r v first).agree (sound.verdicts c' r v' second)
  · subst leads
    exact (sound.finished c r gone (sound.inside inside).1).1 inside

end Runs

/-! ## Two cores -/

/-- Two RPCs for both cores. -/
def duo : Traffic 2 Bool where
  numQuorums := 1
  rpc := fun r =>
    { mask := Finset.univ
      leader := 0
      leads := by decide
      snapshot := fun _ => 1
      nonce := fun _ => if r then 2 else 1 }
  distinct := fun r r' same => by
    have byte := congrFun same 0
    revert byte
    revert r r'
    decide

/-- Both cores are in the first RPC; the leader has read `barrier[0]` without its follower, which then
arrives and departs. -/
def meets : List (Act 2 Bool) :=
  [.raise 0 1, .raise 1 1, .enter 0 false, .enter 1 false] ++ List.replicate 21 (.advance 0) ++
    List.replicate 21 (.advance 1)

theorem verdicts_agree_duo : ∃ w : World 2 Bool, Path (step duo) (Settled duo) .start w ∧
    (0, false, true) ∈ w.returned ∧ w.pc 0 = .lead true .clear0 ∧ ∀ c, ¬w.Inside c false := by
  have ran : ∃ w ∈ exec (step duo) (Settled duo) .start
      (meets ++ List.replicate 7 (.advance 0) ++ [.enter 0 true] ++ List.replicate 16 (.advance 0)),
      (0, false, true) ∈ w.returned ∧ w.pc 0 = .lead true .clear0 := by
    decide +kernel
  obtain ⟨w, run, gone, resets⟩ := Path.exists_of_exec ran
  have apart : ∀ r, (duo.rpc r).nonce ≠ fun _ => 0 := fun r same => by
    have byte := congrFun same 0
    revert byte
    revert r
    decide
  exact ⟨w, run, gone, resets, fun c =>
    (verdicts_agree apart run).2 0 ⟨true, .inl resets⟩ c false rfl ⟨true, gone⟩⟩

/-- The follower goes on to its next RPC before the leader has read its term. -/
theorem leader_disagrees : ∃ w : World 2 Bool, Path (step duo) Theory.anyStep .start w ∧
    (1, false, true) ∈ w.returned ∧ (0, false, false) ∈ w.returned := by
  refine Path.exists_of_exec (l := meets ++ [.raise 1 2] ++ List.replicate 9 (.advance 0)) ?_
  decide +kernel

end Cyclone.Core.Rendezvous
