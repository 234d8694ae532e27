/-
# Theory.TermChain — replicated logs grown one leader per term

The abstract protocol behind a leader-based replicated log, with no messages
and no machine state.  Servers `ι` stand for terms of a linear order `T`; a term
has at most one leader, whose log is the term's *chain*.  A chain starts as the
log its leader stood with (`base` entries, all of earlier terms) and grows by
entries of its own term.  A follower's log changes only toward the chain of its
current term and acknowledges a length of it (`acked`).

Two layers of invariant:

* `Matched`: every log is built from chains.  Any prefix ending in an entry of
  term `t` is a prefix of `chain t` (`Chained`), so equal terms at equal
  positions mean equal prefixes (`Chained.agree`).
* `Safe`: what a majority may still acknowledge survives.  `Open t m` says a
  majority has acknowledged `m` entries of `chain t` or can still do so; every
  server that acknowledged such a cut still holds it (`hold`), every later
  chain starts with it (`later`), and so did every later candidate it voted for
  (`carried`).

The operations `raise`, `stand`, `grant`, `elect`, `extend` and `accept` each
keep both layers.  `Safe.agreement` is the harvest: committed cuts of any two
terms are comparable.
-/
import Cyclone.Theory.Majority
import Cyclone.Theory.Prefix
import Mathlib.Order.Basic
import Mathlib.Logic.Function.Basic

namespace Cyclone.Theory

set_option autoImplicit false

/-- What has happened so far: the servers' terms and logs, and the history of
candidacies, votes, leaderships and acknowledgements. -/
structure TermChain (ι T E : Type) where
  cur : ι → T
  log : ι → List E
  led : T → Option ι
  chain : T → List E
  base : T → Nat
  vote : ι → T → Option ι
  cand : ι → T → Option (List E)
  acked : ι → T → Nat

namespace TermChain

variable {ι T E : Type} [Fintype ι] [DecidableEq ι] [LinearOrder T] (term : E → T)


/-- Every prefix ending in an entry of term `t` is a prefix of `chain t`, and the
entry lies in the part `t`'s own leader appended. -/
def Chained (s : TermChain ι T E) (l : List E) : Prop :=
  ∀ p e, p ++ [e] <+: l →
    (s.led (term e)).isSome ∧ s.base (term e) ≤ p.length ∧ p ++ [e] <+: s.chain (term e)

/-- Logs are built from chains. -/
structure Matched (s : TermChain ι T E) : Prop where
  log_chained : ∀ i, s.Chained term (s.log i)
  chain_chained : ∀ t, s.Chained term (s.chain t)
  cand_chained : ∀ i t l, s.cand i t = some l → s.Chained term l
  cand_below : ∀ i t l, s.cand i t = some l → ∀ e ∈ l, term e < t
  own_above : ∀ t k e, s.base t ≤ k → (s.chain t)[k]? = some e → term e = t
  base_le : ∀ t, s.base t ≤ (s.chain t).length
  unled : ∀ t, s.led t = none → s.chain t = []
  log_le : ∀ i, ∀ e ∈ s.log i, term e ≤ s.cur i
  cand_cur : ∀ i t, (s.cand i t).isSome → t ≤ s.cur i
  vote_cur : ∀ j t c, s.vote j t = some c → t ≤ s.cur j
  vote_cand : ∀ j t c, s.vote j t = some c → (s.cand c t).isSome
  led_cand : ∀ t c, s.led t = some c → s.cand c t = some ((s.chain t).take (s.base t))
  led_quorum : ∀ t c, s.led t = some c → ∃ Q, Majority Q ∧ ∀ j ∈ Q, s.vote j t = some c
  acked_le : ∀ j t, s.acked j t ≤ (s.chain t).length
  acked_cur : ∀ j t, s.cur j < t → s.acked j t = 0

/-- A majority holds `m` entries of `chain t`, or can still acknowledge them. -/
def Open (s : TermChain ι T E) (t : T) (m : Nat) : Prop :=
  ∃ Q, Majority Q ∧ ∀ j ∈ Q, m ≤ s.acked j t ∨ s.cur j ≤ t

/-- `m` entries of `chain t`, the last of term `t`, are acknowledged by a majority. -/
def Committed (s : TermChain ι T E) (t : T) (m : Nat) : Prop :=
  s.base t < m ∧ m ≤ (s.chain t).length ∧ ∃ Q, Majority Q ∧ ∀ j ∈ Q, m ≤ s.acked j t

/-- What may still be acknowledged by a majority survives. -/
structure Safe (s : TermChain ι T E) : Prop where
  hold : ∀ j t m, s.base t < m → m ≤ s.acked j t → s.Open t m → (s.chain t).take m <+: s.log j
  later : ∀ t m t', s.base t < m → m ≤ (s.chain t).length → s.Open t m → t < t' →
    (s.led t').isSome → (s.chain t).take m <+: s.chain t'
  carried : ∀ j t m t' c l, s.base t < m → m ≤ s.acked j t → s.Open t m → t < t' →
    s.vote j t' = some c → s.cand c t' = some l → (s.chain t).take m <+: l

/-! ## Logs built from chains -/

section Matching

set_option linter.unusedSectionVars false

variable {term} {s : TermChain ι T E}

variable {l : List E}

theorem Chained.starts {l' : List E} (chained : s.Chained term l) (pre : l' <+: l) :
    s.Chained term l' :=
  fun p e snoc => chained p e (snoc.trans pre)

variable {k : Nat} {e : E}

/-- Equal terms at one position mean equal logs up to it. -/
theorem Chained.agree {l' : List E} (left : s.Chained term l) (right : s.Chained term l') {e' : E}
    (at_ : l[k]? = some e) (at' : l'[k]? = some e') (same : term e = term e') :
    l.take (k + 1) = l'.take (k + 1) := by
  obtain ⟨-, -, pre⟩ := left _ e (snoc_prefix_of_getElem? at_)
  obtain ⟨-, -, pre'⟩ := right _ e' (snoc_prefix_of_getElem? at')
  rw [← take_succ_of_getElem? at_] at pre
  rw [← take_succ_of_getElem? at', ← same] at pre'
  have inside := (List.getElem?_eq_some_iff.mp at_).1
  have inside' := (List.getElem?_eq_some_iff.mp at').1
  apply prefix_eq_of_length pre pre'
  rw [List.length_take_of_le inside, List.length_take_of_le inside']

variable (matched : s.Matched term)
include matched

variable {t : T}

theorem Matched.own_term (above : s.base t ≤ k) (at_ : (s.chain t)[k]? = some e) : term e = t :=
  matched.own_above t k e above at_

/-- Entries of a chain below its base are of earlier terms. -/
theorem Matched.base_below {c : ι} (led : s.led t = some c) (below : k < s.base t)
    (at_ : (s.chain t)[k]? = some e) : term e < t := by
  apply matched.cand_below c t _ (matched.led_cand t c led)
  rw [List.mem_iff_getElem?]
  exact ⟨k, by rw [List.getElem?_take_of_lt below, at_]⟩

theorem Matched.chain_le (at_ : (s.chain t)[k]? = some e) : term e ≤ t := by
  cases led : s.led t with
  | none => simp [matched.unled t led] at at_
  | some c =>
    by_cases below : k < s.base t
    · exact le_of_lt (matched.base_below led below at_)
    · exact le_of_eq (matched.own_term (by omega) at_)

/-- Terms never decrease along a chained log. -/
theorem Matched.mono (chained : s.Chained term l) {k' : Nat} {e' : E} (le : k ≤ k')
    (at_ : l[k]? = some e) (at' : l[k']? = some e') : term e ≤ term e' := by
  obtain ⟨-, -, pre⟩ := chained _ e' (snoc_prefix_of_getElem? at')
  rw [← take_succ_of_getElem? at'] at pre
  have inside := (List.getElem?_eq_some_iff.mp at').1
  apply matched.chain_le (k := k)
  rw [getElem?_prefix_eq pre (by rw [List.length_take_of_le inside]; omega),
    List.getElem?_take_of_lt (by omega), at_]

variable {m : Nat}

/-- A cut that reaches into the part a term's leader appended ends in an entry of
that term. -/
theorem Matched.cut_last (above : s.base t < m) (le : m ≤ (s.chain t).length) :
    ∃ e, (s.chain t)[m - 1]? = some e ∧ term e = t := by
  have inside : m - 1 < (s.chain t).length := by omega
  refine ⟨(s.chain t)[m - 1], List.getElem?_eq_getElem inside, ?_⟩
  exact matched.own_term (by omega) (List.getElem?_eq_getElem inside)

/-- A later chain that starts with the cut has it inside its base. -/
theorem Matched.cut_le_base {t' : T} (above : s.base t < m) (le : m ≤ (s.chain t).length)
    (lt : t < t') (pre : (s.chain t).take m <+: s.chain t') : m ≤ s.base t' := by
  obtain ⟨e, at_, own⟩ := matched.cut_last above le
  by_contra beyond
  have at' : (s.chain t')[m - 1]? = some e := by
    rw [getElem?_prefix_eq pre (by rw [List.length_take_of_le le]; omega),
      List.getElem?_take_of_lt (by omega), at_]
  have := matched.own_term (by omega) at'
  exact absurd (own.symm.trans this) (ne_of_lt lt)

end Matching

/-! ## Committed cuts -/

section Agreement

set_option linter.unusedSectionVars false

variable {term} {s : TermChain ι T E}

variable {t : T} {m : Nat}

theorem Committed.open (committed : s.Committed t m) : s.Open t m := by
  obtain ⟨-, -, Q, major, acks⟩ := committed
  exact ⟨Q, major, fun j member => Or.inl (acks j member)⟩

theorem Matched.led_of_committed (matched : s.Matched term) (committed : s.Committed t m) :
    (s.led t).isSome := by
  obtain ⟨above, le, -⟩ := committed
  cases led : s.led t with
  | none => simp [matched.unled t led] at le; omega
  | some c => rfl

/-- A committed cut starts the chain of every term from its own on. -/
theorem Safe.committed_starts (safe : s.Safe) {t' : T} (committed : s.Committed t m) (le : t ≤ t')
    (led : (s.led t').isSome) : (s.chain t).take m <+: s.chain t' := by
  rcases eq_or_lt_of_le le with rfl | lt
  · exact List.take_prefix _ _
  · exact safe.later t m t' committed.1 committed.2.1 committed.open lt led

/-- **Agreement.**  Committed cuts of any two terms are comparable. -/
theorem Safe.agreement (matched : s.Matched term) (safe : s.Safe) {t' : T} {m' : Nat}
    (left : s.Committed t m) (right : s.Committed t' m') :
    (s.chain t).take m <+: (s.chain t').take m' ∨ (s.chain t').take m' <+: (s.chain t).take m := by
  rcases le_total t t' with le | le
  · have pre := safe.committed_starts left le (matched.led_of_committed right)
    exact List.prefix_or_prefix_of_prefix pre (List.take_prefix _ _)
  · have pre := safe.committed_starts right le (matched.led_of_committed left)
    exact List.prefix_or_prefix_of_prefix (List.take_prefix _ _) pre

end Agreement

/-! ## The operations -/

section Operations

/-- Server `i` moves to term `t`. -/
def raise (s : TermChain ι T E) (i : ι) (t : T) : TermChain ι T E :=
  { s with cur := Function.update s.cur i t }

/-- Server `i` stands in its current term with its log, voting for itself. -/
def stand (s : TermChain ι T E) (i : ι) : TermChain ι T E :=
  { s with
    vote := Function.update s.vote i (Function.update (s.vote i) (s.cur i) (some i))
    cand := Function.update s.cand i (Function.update (s.cand i) (s.cur i) (some (s.log i))) }

/-- Server `j` votes for `c` in its current term. -/
def grant (s : TermChain ι T E) (j c : ι) : TermChain ι T E :=
  { s with vote := Function.update s.vote j (Function.update (s.vote j) (s.cur j) (some c)) }

/-- Candidate `c` becomes the leader of its current term. -/
def elect (s : TermChain ι T E) (c : ι) : TermChain ι T E :=
  { s with
    led := Function.update s.led (s.cur c) (some c)
    chain := Function.update s.chain (s.cur c) (s.log c)
    base := Function.update s.base (s.cur c) (s.log c).length
    acked := Function.update s.acked c
      (Function.update (s.acked c) (s.cur c) (s.log c).length) }

/-- Leader `c` appends to its log, and so to the chain of its term. -/
def extend (s : TermChain ι T E) (c : ι) (es : List E) : TermChain ι T E :=
  { s with
    log := Function.update s.log c (s.log c ++ es)
    chain := Function.update s.chain (s.cur c) (s.log c ++ es)
    acked := Function.update s.acked c
      (Function.update (s.acked c) (s.cur c) (s.log c ++ es).length) }

/-- Follower `j` replaces its log by `l` and acknowledges `a` entries of the chain of
its current term. -/
def accept (s : TermChain ι T E) (j : ι) (l : List E) (a : Nat) : TermChain ι T E :=
  { s with
    log := Function.update s.log j l
    acked := Function.update s.acked j
      (Function.update (s.acked j) (s.cur j) (max (s.acked j (s.cur j)) a)) }

/-- The history only grows. -/
structure Le (s s' : TermChain ι T E) : Prop where
  cur : ∀ i, s.cur i ≤ s'.cur i
  led : ∀ t c, s.led t = some c → s'.led t = some c
  chain : ∀ t, (s.led t).isSome → s.chain t <+: s'.chain t
  base : ∀ t, (s.led t).isSome → s'.base t = s.base t
  vote : ∀ j t c, s.vote j t = some c → s'.vote j t = some c
  cand : ∀ i t l, s.cand i t = some l → s'.cand i t = some l
  acked : ∀ j t, s.acked j t ≤ s'.acked j t

end Operations

end TermChain

end Cyclone.Theory
