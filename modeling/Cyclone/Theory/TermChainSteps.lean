/-
# Theory.TermChainSteps — every operation keeps `Matched` and `Safe`

One section an operation.  For each: the history only grows (`le_…`), logs stay
built from chains (`Matched.…`), and what may still be acknowledged by a
majority survives (`Safe.…`).

Two facts carry the second layer.  `Open` never becomes true again once false
(`open_of_le`): terms only rise, and a server acknowledges a term only while it
is in it.  `Safe.carries` is the vote argument: a candidate at least as up to
date as a voter that holds an open cut holds the cut itself.
-/
import Cyclone.Theory.TermChain

namespace Cyclone.Theory.TermChain

set_option autoImplicit false

variable {ι T E : Type} [Fintype ι] [DecidableEq ι] [LinearOrder T] {term : E → T}

set_option linter.unusedSectionVars false
variable {s : TermChain ι T E}

/-- The candidate's log `l` is at least as up to date as `lv`: the later last term,
or the same one and no shorter. -/
def UpToDate (term : E → T) (l lv : List E) : Prop :=
  ∀ ev, lv.getLast? = some ev →
    ∃ e, l.getLast? = some e ∧
      (term ev < term e ∨ (term e = term ev ∧ lv.length ≤ l.length))

/-! ## Growth -/

theorem Le.refl (s : TermChain ι T E) : s.Le s :=
  ⟨fun _ => le_refl _, fun _ _ h => h, fun _ _ => List.prefix_rfl, fun _ _ => rfl,
    fun _ _ _ h => h, fun _ _ _ h => h, fun _ _ => le_refl _⟩

theorem Le.trans {s₁ s₂ s₃ : TermChain ι T E} (first : s₁.Le s₂) (second : s₂.Le s₃) :
    s₁.Le s₃ := by
  have later : ∀ t, (s₁.led t).isSome → (s₂.led t).isSome := by
    intro t led
    obtain ⟨c, at_⟩ := Option.isSome_iff_exists.mp led
    rw [first.led t c at_]
    rfl
  refine ⟨fun i => (first.cur i).trans (second.cur i),
    fun t c h => second.led t c (first.led t c h), fun t led => ?_, fun t led => ?_,
    fun j t c h => second.vote j t c (first.vote j t c h),
    fun i t l h => second.cand i t l (first.cand i t l h),
    fun j t => (first.acked j t).trans (second.acked j t)⟩
  · exact (first.chain t led).trans (second.chain t (later t led))
  · rw [second.base t (later t led), first.base t led]

variable {t : T}

theorem le_raise {i : ι} (up : s.cur i ≤ t) : s.Le (s.raise i t) :=
  { Le.refl s with
    cur := fun j => by
      by_cases same : j = i
      · subst same; simpa [raise] using up
      · simp [raise, same] }

/-- A committed cut stays committed. -/
theorem Committed.mono (matched : s.Matched term) {s' : TermChain ι T E} (le : s.Le s') {m : Nat}
    (committed : s.Committed t m) :
    s'.Committed t m ∧ (s'.chain t).take m = (s.chain t).take m := by
  have led := matched.led_of_committed committed
  obtain ⟨above, short, Q, major, acks⟩ := committed
  have grown := le.chain t led
  refine ⟨⟨?_, short.trans grown.length_le, Q, major,
    fun j member => (acks j member).trans (le.acked j t)⟩, take_prefix_eq grown short⟩
  rw [le.base t led]
  exact above

/-- What was open stays open backwards: terms only rise, and only a server that is in the term
acknowledges more of it. -/
theorem Open.of_later {s' : TermChain ι T E} {m : Nat} (opened : s'.Open t m)
    (cur : ∀ j, s.cur j ≤ s'.cur j)
    (acked : ∀ j, m ≤ s'.acked j t → m ≤ s.acked j t ∨ s.cur j ≤ t) : s.Open t m := by
  obtain ⟨Q, major, each⟩ := opened
  exact ⟨Q, major, fun j member => (each j member).elim (acked j) fun low => .inr ((cur j).trans low)⟩

/-! ## One place of a table -/

section Tables

variable {X : Type} {f : ι → T → X} {i j : ι} {t t₀ : T}

theorem update_both (x : X) : Function.update f i (Function.update (f i) t₀ x) j t =
    if j = i ∧ t = t₀ then x else f j t := by
  by_cases same : j = i
  · subst same
    by_cases now : t = t₀ <;> simp [now]
  · simp [same]

/-- A place that was empty is filled. -/
theorem filled {f : ι → T → Option X} (fresh : f i t₀ = none) {x y : X} (at_ : f j t = some x) :
    (if j = i ∧ t = t₀ then some y else f j t) = some x := by
  rw [if_neg, at_]
  rintro ⟨rfl, rfl⟩
  cases fresh.symm.trans at_

variable {c : ι} {m a : Nat}

/-- Nobody acknowledges a term it is not in yet. -/
theorem Matched.acked_later (matched : s.Matched term) (low : s.cur j < t) :
    (if j = c ∧ t = s.cur c then a else s.acked j t) = 0 := by
  rw [if_neg, matched.acked_cur j t low]
  rintro ⟨rfl, rfl⟩
  exact lt_irrefl _ low

/-- What is acknowledged now is not of a term that its server has left. -/
theorem acked_before (left : t < s.cur j)
    (acked : m ≤ if j = c ∧ t = s.cur c then a else s.acked j t) : m ≤ s.acked j t := by
  rwa [if_neg] at acked
  rintro ⟨rfl, rfl⟩
  exact lt_irrefl _ left

theorem acked_or_current (acked : m ≤ if j = c ∧ t = s.cur c then a else s.acked j t) :
    m ≤ s.acked j t ∨ s.cur j ≤ t := by
  split at acked
  · rename_i self
    exact .inr (by rw [self.1, self.2])
  · exact .inl acked

/-- A term without a leader has nothing to acknowledge. -/
theorem Matched.acked_unled (matched : s.Matched term) (none_ : s.led t = none) (j : ι) :
    s.acked j t = 0 := by
  have le := matched.acked_le j t
  rwa [matched.unled t none_, List.length_nil, Nat.le_zero] at le

end Tables

/-! ## Moving to a later term -/

section Raise

variable {i : ι} {t : T} (up : s.cur i ≤ t)
include up

theorem Matched.raise (matched : s.Matched term) : (s.raise i t).Matched term :=
  { matched with
    log_le := fun j e member => (matched.log_le j e member).trans ((le_raise up).cur j)
    cand_cur := fun j u stood => (matched.cand_cur j u stood).trans ((le_raise up).cur j)
    vote_cur := fun j u c voted => (matched.vote_cur j u c voted).trans ((le_raise up).cur j)
    acked_cur := fun j u low => matched.acked_cur j u (lt_of_le_of_lt ((le_raise up).cur j) low) }

theorem open_of_raise {u : T} {m : Nat} (opened : (s.raise i t).Open u m) : s.Open u m :=
  opened.of_later (le_raise up).cur fun _ => .inl

theorem Safe.raise (safe : s.Safe) : (s.raise i t).Safe where
  hold j u m above acked opened := safe.hold j u m above acked (open_of_raise up opened)
  later u m u' above short opened := safe.later u m u' above short (open_of_raise up opened)
  carried j u m u' c l above acked opened :=
    safe.carried j u m u' c l above acked (open_of_raise up opened)

end Raise

/-! ## Standing for election -/

section Stand

variable {i : ι} (fresh : s.vote i (s.cur i) = none) (unstood : s.cand i (s.cur i) = none)

theorem stand_vote (j : ι) (t : T) :
    (s.stand i).vote j t = if j = i ∧ t = s.cur i then some i else s.vote j t := update_both _

theorem stand_cand (j : ι) (t : T) :
    (s.stand i).cand j t = if j = i ∧ t = s.cur i then some (s.log i) else s.cand j t :=
  update_both _

include fresh unstood in
theorem le_stand : s.Le (s.stand i) :=
  { Le.refl s with
    vote := fun j t _ voted => (stand_vote j t).trans (filled fresh voted)
    cand := fun j t _ stood => (stand_cand j t).trans (filled unstood stood) }

include fresh unstood in
theorem Matched.stand (matched : s.Matched term) (below : ∀ e ∈ s.log i, term e < s.cur i) :
    (s.stand i).Matched term where
  log_chained := matched.log_chained
  chain_chained := matched.chain_chained
  cand_chained j t l stood := by
    rw [stand_cand] at stood
    split at stood
    · cases stood; exact matched.log_chained i
    · exact matched.cand_chained j t l stood
  cand_below j t l stood := by
    rw [stand_cand] at stood
    split at stood
    · rename_i here
      cases stood
      rw [here.2]
      exact below
    · exact matched.cand_below j t l stood
  own_above := matched.own_above
  base_le := matched.base_le
  unled := matched.unled
  log_le := matched.log_le
  cand_cur j t stood := by
    rw [stand_cand] at stood
    split at stood
    · rename_i here
      rw [here.1, here.2]
      exact le_refl _
    · exact matched.cand_cur j t stood
  vote_cur j t c voted := by
    rw [stand_vote] at voted
    split at voted
    · rename_i here
      rw [here.1, here.2]
      exact le_refl _
    · exact matched.vote_cur j t c voted
  vote_cand j t c voted := by
    rw [stand_vote] at voted
    rw [stand_cand]
    split at voted
    · rename_i here
      cases voted
      simp [here.2]
    · split
      · rfl
      · exact matched.vote_cand j t c voted
  led_cand t c led := (le_stand fresh unstood).cand c t _ (matched.led_cand t c led)
  led_quorum t c led := by
    obtain ⟨Q, major, votes⟩ := matched.led_quorum t c led
    exact ⟨Q, major, fun j member => (le_stand fresh unstood).vote j t c (votes j member)⟩
  acked_le := matched.acked_le
  acked_cur := matched.acked_cur

include unstood in
theorem Safe.stand (matched : s.Matched term) (safe : s.Safe) : (s.stand i).Safe where
  hold := safe.hold
  later := safe.later
  carried j t m t' c l above acked opened lt voted stood := by
    rw [stand_vote] at voted
    rw [stand_cand] at stood
    split at voted
    · -- the candidate's own vote: it stands with the log it holds
      rename_i here
      cases voted
      rw [if_pos ⟨rfl, here.2⟩] at stood
      cases stood
      rw [← here.1]
      exact safe.hold j t m above acked opened
    · split at stood
      · -- nobody can have voted for a candidate before it stood
        rename_i here
        have := matched.vote_cand j t' c voted
        rw [here.1, here.2, unstood] at this
        cases this
      · exact safe.carried j t m t' c l above acked opened lt voted stood

end Stand

/-! ## Voting -/

section Grant

theorem grant_vote (j c k : ι) (t : T) :
    (s.grant j c).vote k t = if k = j ∧ t = s.cur j then some c else s.vote k t := update_both _

variable {j c : ι} (fresh : s.vote j (s.cur j) = none)
include fresh

theorem le_grant : s.Le (s.grant j c) :=
  { Le.refl s with vote := fun k t _ voted => (grant_vote j c k t).trans (filled fresh voted) }

theorem Matched.grant (matched : s.Matched term) (stood : (s.cand c (s.cur j)).isSome) :
    (s.grant j c).Matched term :=
  { matched with
    vote_cur := fun k t d voted => by
      rw [grant_vote] at voted
      split at voted
      · rename_i here
        rw [here.1, here.2]
        exact le_refl _
      · exact matched.vote_cur k t d voted
    vote_cand := fun k t d voted => by
      rw [grant_vote] at voted
      split at voted
      · rename_i here
        cases voted
        rw [here.2]
        exact stood
      · exact matched.vote_cand k t d voted
    led_quorum := fun t d led => by
      obtain ⟨Q, major, votes⟩ := matched.led_quorum t d led
      exact ⟨Q, major, fun k member => (le_grant fresh).vote k t d (votes k member)⟩ }

variable {l : List E}

omit fresh in
/-- A log at least as up to date as one that holds an open cut holds the cut. -/
theorem Safe.carries (matched : s.Matched term) (safe : s.Safe) {t : T} {m : Nat}
    (above : s.base t < m) (short : m ≤ (s.chain t).length) (opened : s.Open t m) {lv : List E}
    (lchained : s.Chained term l) (vchained : s.Chained term lv)
    (holds : (s.chain t).take m <+: lv) (upToDate : UpToDate term l lv) :
    (s.chain t).take m <+: l := by
  have cutLength : ((s.chain t).take m).length = m := List.length_take_of_le short
  -- the cut's last entry, of term `t`, stands in the voter's log
  obtain ⟨x, cutAt, own⟩ := matched.cut_last above short
  have voterAt : lv[m - 1]? = some x := by
    rw [getElem?_prefix_eq holds (by omega), List.getElem?_take_of_lt (by omega), cutAt]
  have voterLong : m ≤ lv.length := by
    have := holds.length_le
    omega
  have voterNonempty : lv ≠ [] := by
    rintro rfl
    simp at voterAt
  obtain ⟨ev, lastVoter⟩ : ∃ ev, lv.getLast? = some ev :=
    ⟨_, List.getLast?_eq_some_getLast voterNonempty⟩
  have lastVoterAt : lv[lv.length - 1]? = some ev := by
    rwa [List.getLast?_eq_getElem?] at lastVoter
  have voterTerm : t ≤ term ev := by
    rw [← own]
    exact matched.mono vchained (by omega) voterAt lastVoterAt
  obtain ⟨e, last, newer⟩ := upToDate ev lastVoter
  have lastAt : l[l.length - 1]? = some e := by
    rwa [List.getLast?_eq_getElem?] at last
  have nonempty : l.length ≠ 0 := by
    have := (List.getElem?_eq_some_iff.mp lastAt).1
    omega
  obtain ⟨led, baseLe, whole⟩ := lchained _ e (snoc_prefix_of_getElem? lastAt)
  rw [← take_succ_of_getElem? lastAt, Nat.sub_add_cancel (by omega), List.take_length] at whole
  rw [List.length_take_of_le (by omega)] at baseLe
  have termLe : t ≤ term e := by
    rcases newer with lt | ⟨same, -⟩
    · exact voterTerm.trans (le_of_lt lt)
    · rwa [same]
  rcases eq_or_lt_of_le termLe with same | lt
  · -- both logs end inside term `t`: the candidate's is the longer
    have longer : lv.length ≤ l.length := by
      rcases newer with lt | ⟨-, longer⟩
      · exact absurd (lt_of_le_of_lt voterTerm lt) (by rw [same]; exact lt_irrefl _)
      · exact longer
    rw [← same] at whole
    exact List.prefix_of_prefix_length_le (List.take_prefix _ _) whole (by omega)
  · -- the candidate's last entry is of a later term, whose chain already has the cut
    have start := safe.later t m (term e) above short opened lt led
    have inside := matched.cut_le_base above short lt start
    exact List.prefix_of_prefix_length_le start whole (by omega)

theorem Safe.grant (matched : s.Matched term) (safe : s.Safe)
    (stood : s.cand c (s.cur j) = some l) (upToDate : UpToDate term l (s.log j)) :
    (s.grant j c).Safe where
  hold := safe.hold
  later := safe.later
  carried k t m t' d l' above acked opened lt voted stood' := by
    rw [grant_vote] at voted
    split at voted
    · rename_i here
      obtain ⟨rfl, rfl⟩ := here
      cases voted
      have same : l' = l := Option.some.inj (stood'.symm.trans stood)
      subst same
      exact safe.carries matched above (acked.trans (matched.acked_le k t)) opened
        (matched.cand_chained c _ l' stood) (matched.log_chained k)
        (safe.hold k t m above acked opened) upToDate
    · exact safe.carried k t m t' d l' above acked opened lt voted stood'

end Grant

/-! ## Winning an election -/

section Elect

variable {c : ι}

theorem elect_led (t : T) :
    (s.elect c).led t = if t = s.cur c then some c else s.led t := Function.update_apply ..

theorem elect_chain (t : T) :
    (s.elect c).chain t = if t = s.cur c then s.log c else s.chain t := Function.update_apply ..

theorem elect_base (t : T) :
    (s.elect c).base t = if t = s.cur c then (s.log c).length else s.base t :=
  Function.update_apply ..

theorem elect_acked (j : ι) (t : T) :
    (s.elect c).acked j t =
      if j = c ∧ t = s.cur c then (s.log c).length else s.acked j t := update_both _

variable (open_ : s.led (s.cur c) = none)
include open_

theorem le_elect (matched : s.Matched term) : s.Le (s.elect c) := by
  have other : ∀ t, (s.led t).isSome → t ≠ s.cur c := by
    rintro t led rfl
    rw [open_] at led
    cases led
  refine { Le.refl s with led := fun t d led => ?_, chain := fun t led => ?_, base := fun t led => ?_, acked := fun j t => ?_ }
  · rw [elect_led, if_neg (other t (by rw [led]; rfl))]
    exact led
  · rw [elect_chain, if_neg (other t led)]
  · rw [elect_base, if_neg (other t led)]
  · rw [elect_acked]
    split
    · rename_i here
      rw [here.2, matched.acked_unled open_]
      exact Nat.zero_le _
    · exact le_refl _

/-- No log holds an entry of the term before its leader is elected. -/
theorem Chained.elect {l : List E} (chained : s.Chained term l) : (s.elect c).Chained term l := by
  intro p e snoc
  obtain ⟨led, baseLe, pre⟩ := chained p e snoc
  have other : term e ≠ s.cur c := by
    intro now
    rw [now, open_] at led
    cases led
  rw [elect_led, elect_base, elect_chain, if_neg other, if_neg other, if_neg other]
  exact ⟨led, baseLe, pre⟩

theorem Matched.elect (matched : s.Matched term)
    (stood : s.cand c (s.cur c) = some (s.log c))
    (won : ∃ Q, Majority Q ∧ ∀ j ∈ Q, s.vote j (s.cur c) = some c) :
    (s.elect c).Matched term where
  log_chained i := Chained.elect open_ (matched.log_chained i)
  chain_chained t := by
    rw [elect_chain]
    split
    · exact Chained.elect open_ (matched.log_chained c)
    · exact Chained.elect open_ (matched.chain_chained t)
  cand_chained i t l h := Chained.elect open_ (matched.cand_chained i t l h)
  cand_below := matched.cand_below
  own_above t k e above at_ := by
    rw [elect_base] at above
    rw [elect_chain] at at_
    split at above
    · rename_i now
      rw [if_pos now] at at_
      have := (List.getElem?_eq_some_iff.mp at_).1
      omega
    · rename_i now
      rw [if_neg now] at at_
      exact matched.own_above t k e above at_
  base_le t := by
    rw [elect_base, elect_chain]
    split
    · exact le_refl _
    · exact matched.base_le t
  unled t none_ := by
    rw [elect_led] at none_
    rw [elect_chain]
    split at none_
    · cases none_
    · rename_i now
      rw [if_neg now]
      exact matched.unled t none_
  log_le := matched.log_le
  cand_cur := matched.cand_cur
  vote_cur := matched.vote_cur
  vote_cand := matched.vote_cand
  led_cand t d led := by
    rw [elect_led] at led
    rw [elect_chain, elect_base]
    split at led
    · rename_i now
      cases led
      rw [if_pos now, if_pos now, List.take_length, now]
      exact stood
    · rename_i now
      rw [if_neg now, if_neg now]
      exact matched.led_cand t d led
  led_quorum t d led := by
    rw [elect_led] at led
    split at led
    · rename_i now
      cases led
      rw [now]
      exact won
    · exact matched.led_quorum t d led
  acked_le j t := by
    rw [elect_acked, elect_chain]
    split
    · rename_i here
      rw [if_pos here.2]
    · split
      · rename_i now
        rw [now, matched.acked_unled open_]
        exact Nat.zero_le _
      · exact matched.acked_le j t
  acked_cur j t low := (elect_acked j t).trans (matched.acked_later low)

omit open_ in
theorem open_of_elect {t : T} {m : Nat} (other : t ≠ s.cur c) (opened : (s.elect c).Open t m) :
    s.Open t m := by
  refine opened.of_later (fun _ => le_refl _) fun j acked => .inl ?_
  rwa [elect_acked, if_neg (fun here => other here.2)] at acked

/-- A cut that is acknowledged is not of the term whose chain has no entry of its own yet. -/
theorem Matched.elect_cut (matched : s.Matched term) {j : ι} {t : T} {m : Nat}
    (above : (s.elect c).base t < m) (acked : m ≤ (s.elect c).acked j t) :
    t ≠ s.cur c ∧ s.base t < m ∧ m ≤ s.acked j t := by
  rw [elect_base] at above
  rw [elect_acked] at acked
  by_cases now : t = s.cur c
  · rw [if_pos now] at above
    split at acked
    · omega
    · rw [now, matched.acked_unled open_] at acked
      omega
  · rw [if_neg now] at above
    rw [if_neg (fun here => now here.2)] at acked
    exact ⟨now, above, acked⟩

theorem Safe.elect (matched : s.Matched term) (safe : s.Safe)
    (stood : s.cand c (s.cur c) = some (s.log c))
    (won : ∃ Q, Majority Q ∧ ∀ j ∈ Q, s.vote j (s.cur c) = some c) : (s.elect c).Safe where
  hold j t m above acked opened := by
    obtain ⟨old, above, acked⟩ := matched.elect_cut open_ above acked
    rw [elect_chain, if_neg old]
    exact safe.hold j t m above acked (open_of_elect old opened)
  later t m t' above short opened lt led := by
    rw [elect_base] at above
    rw [elect_chain] at short ⊢
    by_cases now : t = s.cur c
    · rw [if_pos now] at above short
      omega
    · rw [if_neg now] at above short ⊢
      have before := open_of_elect now opened
      rw [elect_chain]
      split
      · -- a voter of the new leader acknowledged the cut, so the leader stood with it
        rename_i new
        obtain ⟨Q, major, each⟩ := before
        obtain ⟨R, majorR, votes⟩ := won
        obtain ⟨j, inQ, inR⟩ := major.meet majorR
        have voted := votes j inR
        have high := matched.vote_cur j _ c voted
        have acked : m ≤ s.acked j t := by
          rcases each j inQ with acked | low
          · exact acked
          · exact absurd (lt_of_lt_of_le (new ▸ lt) high) (not_lt.mpr low)
        exact safe.carried j t m (s.cur c) c (s.log c) above acked ⟨Q, major, each⟩
          (new ▸ lt) voted stood
      · rename_i old
        rw [elect_led, if_neg old] at led
        exact safe.later t m t' above short before lt led
  carried j t m t' d l above acked opened lt voted stood' := by
    obtain ⟨old, above, acked⟩ := matched.elect_cut open_ above acked
    rw [elect_chain, if_neg old]
    exact safe.carried j t m t' d l above acked (open_of_elect old opened) lt voted stood'

end Elect

/-! ## A leader appends -/

section Extend

variable {c : ι} {es : List E}

theorem extend_chain (t : T) :
    (s.extend c es).chain t = if t = s.cur c then s.log c ++ es else s.chain t :=
  Function.update_apply ..

theorem extend_log (j : ι) :
    (s.extend c es).log j = if j = c then s.log c ++ es else s.log j := Function.update_apply ..

theorem extend_acked (j : ι) (t : T) :
    (s.extend c es).acked j t =
      if j = c ∧ t = s.cur c then (s.log c ++ es).length else s.acked j t := update_both _

variable (leads : s.led (s.cur c) = some c) (same : s.log c = s.chain (s.cur c))

include same in
theorem extend_chain_grows (t : T) : s.chain t <+: (s.extend c es).chain t := by
  rw [extend_chain]
  split
  · rename_i now
    rw [now, ← same]
    exact List.prefix_append _ _
  · exact List.prefix_rfl

include same in
theorem extend_acked_grows (matched : s.Matched term) (j : ι) (t : T) :
    s.acked j t ≤ (s.extend c es).acked j t := by
  rw [extend_acked]
  split
  · rename_i here
    have := matched.acked_le j t
    rw [here.2, ← same] at this
    rw [here.2, List.length_append]
    omega
  · exact le_refl _

include same in
theorem le_extend (matched : s.Matched term) : s.Le (s.extend c es) :=
  { Le.refl s with
    chain := fun t _ => extend_chain_grows same t
    acked := extend_acked_grows same matched }

include same in
theorem Chained.extend {l : List E} (chained : s.Chained term l) :
    (s.extend c es).Chained term l := by
  intro p e snoc
  obtain ⟨led, baseLe, pre⟩ := chained p e snoc
  exact ⟨led, baseLe, pre.trans (extend_chain_grows same _)⟩

variable (own : ∀ e ∈ es, term e = s.cur c)

include leads same own in
/-- The extended chain is chained: what is new is of its own term and above its base. -/
theorem Matched.extended_chained (matched : s.Matched term) :
    (s.extend c es).Chained term (s.log c ++ es) := by
  intro p e snoc
  rcases Nat.lt_or_ge p.length (s.log c).length with inside | beyond
  · have old : p ++ [e] <+: s.log c :=
      List.prefix_of_prefix_length_le snoc (List.prefix_append _ _) (by simp; omega)
    exact Chained.extend same (matched.log_chained c) p e old
  · have at_ := getElem?_snoc snoc
    rw [List.getElem?_append_right beyond] at at_
    have now : term e = s.cur c := own e (List.mem_of_getElem? at_)
    have baseLe := matched.base_le (s.cur c)
    rw [← same] at baseLe
    rw [now, extend_chain, if_pos rfl]
    refine ⟨?_, ?_, snoc⟩
    · change (s.led (s.cur c)).isSome
      rw [leads]
      rfl
    · change s.base (s.cur c) ≤ p.length
      omega

include leads same own in
theorem Matched.extend (matched : s.Matched term) : (s.extend c es).Matched term where
  log_chained j := by
    rw [extend_log]
    split
    · exact matched.extended_chained leads same own
    · exact Chained.extend same (matched.log_chained j)
  chain_chained t := by
    rw [extend_chain]
    split
    · exact matched.extended_chained leads same own
    · exact Chained.extend same (matched.chain_chained t)
  cand_chained i t l h := Chained.extend same (matched.cand_chained i t l h)
  cand_below := matched.cand_below
  own_above t k e above at_ := by
    rw [extend_chain] at at_
    split at at_
    · rename_i now
      rcases Nat.lt_or_ge k (s.log c).length with inside | beyond
      · rw [List.getElem?_append_left inside, same, ← now] at at_
        exact matched.own_above t k e above at_
      · rw [List.getElem?_append_right beyond] at at_
        rw [now]
        exact own e (List.mem_of_getElem? at_)
    · exact matched.own_above t k e above at_
  base_le t := (matched.base_le t).trans (extend_chain_grows same t).length_le
  unled t none_ := by
    rw [extend_chain, if_neg]
    · exact matched.unled t none_
    · rintro rfl
      exact absurd (leads.symm.trans none_) (by simp)
  log_le j e member := by
    rw [extend_log] at member
    split at member
    · rename_i here
      rw [here]
      rcases List.mem_append.mp member with old | new
      · exact matched.log_le c e old
      · exact le_of_eq (own e new)
    · exact matched.log_le j e member
  cand_cur := matched.cand_cur
  vote_cur := matched.vote_cur
  vote_cand := matched.vote_cand
  led_cand t d led := by
    change s.cand d t = some (((s.extend c es).chain t).take (s.base t))
    rw [take_prefix_eq (extend_chain_grows same t) (matched.base_le t)]
    exact matched.led_cand t d led
  led_quorum := matched.led_quorum
  acked_le j t := by
    rw [extend_acked]
    split
    · rename_i here
      rw [extend_chain, if_pos here.2]
    · exact (matched.acked_le j t).trans (extend_chain_grows same t).length_le
  acked_cur j t low := (extend_acked j t).trans (matched.acked_later low)

variable {m : Nat}

theorem open_of_extend {t : T} (opened : (s.extend c es).Open t m) : s.Open t m :=
  opened.of_later (fun _ => le_refl _) fun j acked => acked_or_current (extend_acked j t ▸ acked)

include same in
/-- A cut longer than the old chain is acknowledged by the leader alone. -/
theorem Matched.only_leader (matched : s.Matched term) {j : ι} (long : (s.log c).length < m)
    (acked : m ≤ (s.extend c es).acked j (s.cur c)) : j = c := by
  by_contra other
  rw [extend_acked, if_neg (fun here => other here.1)] at acked
  have := matched.acked_le j (s.cur c)
  rw [← same] at this
  omega

include same in
theorem Safe.extend (matched : s.Matched term) (safe : s.Safe) : (s.extend c es).Safe where
  hold j t m above acked opened := by
    have before := open_of_extend opened
    rw [extend_log]
    split
    · rename_i here
      rw [here, extend_acked] at acked
      by_cases now : t = s.cur c
      · rw [extend_chain, if_pos now]
        exact List.take_prefix _ _
      · rw [if_neg (fun h => now h.2)] at acked
        rw [extend_chain, if_neg now]
        exact (safe.hold c t m above acked before).trans (List.prefix_append _ _)
    · rename_i other
      rw [extend_acked, if_neg (fun h => other h.1)] at acked
      rw [take_prefix_eq (extend_chain_grows same t) (acked.trans (matched.acked_le j t))]
      exact safe.hold j t m above acked before
  later t m t' above short opened lt led := by
    have before := open_of_extend opened
    by_cases old : m ≤ (s.chain t).length
    · rw [take_prefix_eq (extend_chain_grows same t) old]
      exact (safe.later t m t' above old before lt led).trans (extend_chain_grows same t')
    · -- a later leader's voters have left the term without the new entries
      exfalso
      have now : t = s.cur c := by
        by_contra other
        rw [extend_chain, if_neg other] at short
        exact old short
      obtain ⟨d, led'⟩ := Option.isSome_iff_exists.mp led
      obtain ⟨R, majorR, votes⟩ := matched.led_quorum t' d led'
      obtain ⟨Q, major, each⟩ := opened
      obtain ⟨j, inQ, inR⟩ := major.meet majorR
      have high := matched.vote_cur j t' d (votes j inR)
      rcases each j inQ with acked | low
      · rw [now] at acked old
        have self := matched.only_leader same (by rw [same]; omega) acked
        rw [self, ← now] at high
        exact absurd lt (not_lt.mpr high)
      · exact absurd (lt_of_lt_of_le lt high) (not_lt.mpr low)
  carried j t m t' d l above acked opened lt voted stood := by
    have before := open_of_extend opened
    rw [extend_acked] at acked
    have acked' := acked_before (lt.trans_le (matched.vote_cur j t' d voted)) acked
    rw [take_prefix_eq (extend_chain_grows same t) (acked'.trans (matched.acked_le j t))]
    exact safe.carried j t m t' d l above acked' before lt voted stood

end Extend

/-! ## A follower accepts -/

section Accept

variable {j : ι} {l : List E} {a : Nat}

theorem accept_log (k : ι) : (s.accept j l a).log k = if k = j then l else s.log k :=
  Function.update_apply ..

theorem accept_acked (k : ι) (t : T) :
    (s.accept j l a).acked k t =
      if k = j ∧ t = s.cur j then max (s.acked j t) a else s.acked k t := by
  refine (update_both _).trans ?_
  split
  · rename_i here
    rw [here.2]
  · rfl

theorem le_accept : s.Le (s.accept j l a) := by
  refine { Le.refl s with acked := fun k t => ?_ }
  rw [accept_acked]
  split
  · rename_i here
    rw [here.1]
    exact le_max_left _ _
  · exact le_refl _

theorem Matched.accept (matched : s.Matched term) (chained : s.Chained term l)
    (bounded : ∀ e ∈ l, term e ≤ s.cur j) (short : a ≤ (s.chain (s.cur j)).length) :
    (s.accept j l a).Matched term :=
  { matched with
    log_chained := fun k => by
      rw [accept_log]
      split
      · exact chained
      · exact matched.log_chained k
    log_le := fun k e member => by
      rw [accept_log] at member
      split at member
      · rename_i here
        rw [here]
        exact bounded e member
      · exact matched.log_le k e member
    acked_le := fun k t => by
      rw [accept_acked]
      split
      · rename_i here
        rw [here.2]
        exact max_le (matched.acked_le j _) short
      · exact matched.acked_le k t
    acked_cur := fun k t low => (accept_acked k t).trans (matched.acked_later low) }

theorem open_of_accept {t : T} {m : Nat} (opened : (s.accept j l a).Open t m) : s.Open t m :=
  opened.of_later (fun _ => le_refl _) fun k acked => acked_or_current (accept_acked k t ▸ acked)

/-- A follower that keeps every cut of the current chain it holds, and acknowledges
only what it holds, keeps what may still be acknowledged by a majority. -/
theorem Safe.accept (matched : s.Matched term) (safe : s.Safe) (led : (s.led (s.cur j)).isSome)
    (holds : (s.chain (s.cur j)).take a <+: l)
    (keeps : ∀ m, (s.chain (s.cur j)).take m <+: s.log j → (s.chain (s.cur j)).take m <+: l) :
    (s.accept j l a).Safe where
  hold k t m above acked opened := by
    have before := open_of_accept opened
    rw [accept_acked] at acked
    rw [accept_log]
    by_cases here : k = j
    · subst here
      rw [if_pos rfl]
      by_cases now : t = s.cur k
      · subst now
        rw [if_pos ⟨rfl, rfl⟩] at acked
        rcases le_max_iff.mp acked with old | new
        · exact keeps m (safe.hold k _ m above old before)
        · exact (List.take_prefix_take_left new).trans holds
      · rw [if_neg (fun h => now h.2)] at acked
        have start := safe.hold k t m above acked before
        have low : t < s.cur k := by
          rcases lt_or_ge (s.cur k) t with high | le
          · rw [matched.acked_cur k t high] at acked
            omega
          · exact lt_of_le_of_ne le now
        -- the chain of the current term starts with the cut as well
        have long := acked.trans (matched.acked_le k t)
        have chainStart := safe.later t m _ above long before low led
        have cut : (s.chain (s.cur k)).take m = (s.chain t).take m :=
          (take_prefix_iff long).mp chainStart
        rw [← cut] at start
        exact cut ▸ keeps m start
    · rw [if_neg (fun h => here h.1)] at acked
      rw [if_neg here]
      exact safe.hold k t m above acked before
  later t m t' above long opened lt led' :=
    safe.later t m t' above long (open_of_accept opened) lt led'
  carried k t m t' c l' above acked opened lt voted stood := by
    rw [accept_acked] at acked
    have acked' := acked_before (lt.trans_le (matched.vote_cur k t' c voted)) acked
    exact safe.carried k t m t' c l' above acked' (open_of_accept opened) lt voted stood

end Accept

end Cyclone.Theory.TermChain
