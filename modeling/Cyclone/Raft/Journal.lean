/-
# Raft.Journal — the log as its callbacks tell it

Everything outside `raft_server.c` learns about the log through the callbacks: an offer
appends, a pop removes the newest entry, `applylog` applies the next one, and a batch poll releases
the oldest.  A `Journal` is the log such a listener keeps, and `Journal.Step` lists what a
callback may tell it: in particular, nothing applied is ever popped and nothing unapplied is
released.  `journal_run` says that the callbacks of every run of a server are such a story and
that it ends in the server's own log.
-/
import Cyclone.Raft.IndexChain

namespace Cyclone.Raft

open Relation
open Cyclone.Theory (Path)

set_option autoImplicit false

variable {ι α : Type}

/-- A listener's log: its entries, and how many of them were released and applied. -/
structure Journal (ι α : Type) where
  entries : List (Entry ι α)
  front : Nat
  applied : Nat

namespace Journal

def empty : Journal ι α := ⟨[], 0, 0⟩

/-- What one callback tells. -/
inductive Step : Journal ι α → Callback ι α → Journal ι α → Prop where
  | offer (j : Journal ι α) (ety : Entry ι α) (idx : Int) (place : idx = j.entries.length) :
      Step j (.logOffer ety idx) { j with entries := j.entries ++ [ety] }
  | pop (kept : List (Entry ι α)) (ety : Entry ι α) (front applied : Nat) (idx : Int)
      (place : idx = kept.length) (unapplied : applied ≤ kept.length) :
      Step ⟨kept ++ [ety], front, applied⟩ (.logPop ety idx) ⟨kept, front, applied⟩
  | apply (j : Journal ι α) (ety : Entry ι α) (idx : Int) (place : idx = j.applied)
      (next : j.entries[j.applied]? = some ety) :
      Step j (.applylog ety idx) { j with applied := j.applied + 1 }
  | poll (j : Journal ι α) (etys : List (Entry ι α)) (idx : Int) (place : idx = j.front)
      (oldest : etys = (j.entries.drop j.front).take etys.length)
      (done : j.front + etys.length ≤ j.applied) :
      Step j (.logPollBatch etys idx) { j with front := j.front + etys.length }
  | outward (j : Journal ι α) {c : Callback ι α} (outward : c.outward = true) : Step j c j
  | free (j : Journal ι α) (ety : Entry ι α) : Step j (.logPoll ety) j

/-- What a list of callbacks tells. -/
inductive Run : Journal ι α → List (Callback ι α) → Journal ι α → Prop where
  | nil (j : Journal ι α) : Run j [] j
  | snoc {j k l : Journal ι α} {cs : List (Callback ι α)} {c : Callback ι α} :
      Run j cs k → Step k c l → Run j (cs ++ [c]) l

namespace Run

variable {j k l : Journal ι α} {cs cs' : List (Callback ι α)} {c : Callback ι α}

theorem single (step : Step j c k) : Run j [c] k := .snoc (.nil j) step

theorem trans (first : Run j cs k) (second : Run k cs' l) : Run j (cs ++ cs') l := by
  induction second with
  | nil => rwa [List.append_nil]
  | @snoc k' l' cs'' c run step ih =>
    rw [← List.append_assoc]
    exact .snoc ih step

theorem cons (step : Step j c k) (run : Run k cs l) : Run j (c :: cs) l :=
  (single step).trans run

/-- Callbacks that tell nothing about the log. -/
theorem silent (silent : ∀ c ∈ cs, Step j c j) : Run j cs j := by
  induction cs with
  | nil => exact .nil j
  | cons c cs ih =>
    exact cons (silent c List.mem_cons_self) (ih fun c' later => silent c' (List.mem_cons_of_mem c later))

/-- What was told up to a point. -/
theorem split {cs : List (Callback ι α)} (run : Run j (cs ++ cs') l) :
    ∃ k, Run j cs k ∧ Run k cs' l := by
  induction cs' using List.reverseRecOn generalizing l with
  | nil =>
    rw [List.append_nil] at run
    exact ⟨l, run, .nil l⟩
  | append_singleton cs' c ih =>
    rw [← List.append_assoc] at run
    generalize whole : cs ++ cs' ++ [c] = all at run
    cases run with
    | nil => simp at whole
    | @snoc k' _ cs'' c' run step =>
      obtain ⟨rfl, same⟩ := List.append_inj' whole rfl
      cases same
      obtain ⟨m, before, after⟩ := ih run
      exact ⟨m, before, .snoc after step⟩

theorem of_nil (run : Run j [] l) : j = l := by
  generalize nothing : ([] : List (Callback ι α)) = cs at run
  cases run with
  | nil => rfl
  | snoc => simp at nothing

theorem uncons (run : Run j (c :: cs) l) : ∃ k, Step j c k ∧ Run k cs l := by
  obtain ⟨k, first, rest⟩ := @Run.split ι α j l cs [c] run
  refine ⟨k, ?_, rest⟩
  generalize whole : [c] = all at first
  cases first with
  | nil => cases whole
  | @snoc k' _ cs' c' run step =>
    obtain ⟨rfl, same⟩ := List.append_inj' (show [] ++ [c] = cs' ++ [c'] from whole) rfl
    cases same
    cases run.of_nil
    exact step

/-- The next callback of a story that is told up to `played`. -/
theorem next {i : Journal ι α} {calls later : List (Callback ι α)} {played : Nat} (told : Run i cs j)
    (tells : Run j later l) (split : calls = cs ++ later) (count : cs.length = played)
    (heard : calls[played]? = some c) :
    ∃ k rest, Step j c k ∧ Run i (cs ++ [c]) k ∧ Run k rest l ∧ calls = cs ++ [c] ++ rest ∧
      (cs ++ [c]).length = played + 1 := by
  rw [split, ← count, List.getElem?_append_right (Nat.le_refl _), Nat.sub_self] at heard
  obtain ⟨rest, rfl⟩ := List.head?_eq_some_iff.mp (List.head?_eq_getElem?.trans heard)
  obtain ⟨k, step, tells⟩ := tells.uncons
  refine ⟨k, rest, step, .snoc told step, tells, ?_, ?_⟩
  · rw [split, List.append_assoc]
    rfl
  · rw [List.length_append, count]
    rfl

/-- The start of the log, when nothing is popped from it. -/
theorem keeps_start (run : Run j cs k) {m : Nat}
    (above : ∀ ety idx, .logPop ety idx ∈ cs → (m : Int) ≤ idx) (short : m ≤ j.entries.length) :
    m ≤ k.entries.length ∧ k.entries.take m = j.entries.take m := by
  induction run with
  | nil => exact ⟨short, rfl⟩
  | @snoc k l cs c run step ih =>
    obtain ⟨inside, same⟩ := ih fun ety idx member => above ety idx (List.mem_append_left _ member)
    rw [← same]
    cases step with
    | offer _ ety idx place =>
      refine ⟨Nat.le_trans inside (by simp), ?_⟩
      exact List.take_append_of_le_length inside
    | pop kept ety front done idx place unapplied =>
      have high := above ety idx (by simp)
      have enough : m ≤ kept.length := by omega
      exact ⟨enough, (List.take_append_of_le_length enough).symm⟩
    | apply => exact ⟨inside, rfl⟩
    | poll => exact ⟨inside, rfl⟩
    | outward => exact ⟨inside, rfl⟩
    | free => exact ⟨inside, rfl⟩

/-- What was applied is never popped. -/
theorem keeps_applied (run : Run j cs k) (inside : j.applied ≤ j.entries.length) :
    j.applied ≤ k.applied ∧ k.applied ≤ k.entries.length ∧
      k.entries.take j.applied = j.entries.take j.applied := by
  induction run with
  | nil => exact ⟨Nat.le_refl _, inside, rfl⟩
  | @snoc k l cs c run step ih =>
    obtain ⟨more, within, same⟩ := ih
    cases step with
    | offer _ ety idx place =>
      refine ⟨more, within.trans (by simp), ?_⟩
      rw [← same]
      exact List.take_append_of_le_length (more.trans within)
    | pop kept ety front done idx place unapplied =>
      refine ⟨more, unapplied, ?_⟩
      rw [← same]
      exact (List.take_append_of_le_length (Nat.le_trans more unapplied)).symm
    | apply _ ety idx place next =>
      obtain ⟨bound, -⟩ := List.getElem?_eq_some_iff.mp next
      exact ⟨Nat.le_succ_of_le more, bound, same⟩
    | poll => exact ⟨more, within, same⟩
    | outward => exact ⟨more, within, same⟩
    | free => exact ⟨more, within, same⟩

/-- What was applied, and that it is in the log. -/
theorem appliedOf_eq (run : Run .empty cs j) :
    j.applied ≤ j.entries.length ∧ appliedOf cs = indexed (j.entries.take j.applied) := by
  generalize start : Journal.empty = j₀ at run
  induction run with
  | nil => subst start; exact ⟨Nat.le_refl 0, rfl⟩
  | @snoc k l cs c run step ih =>
    obtain ⟨inside, applied⟩ := ih
    rw [appliedOf_append, applied]
    cases step with
    | offer _ ety idx place =>
      refine ⟨Nat.le_trans inside (by simp), ?_⟩
      simp only [List.take_append_of_le_length inside]
      exact List.append_nil _
    | pop kept ety front done idx place unapplied =>
      refine ⟨unapplied, ?_⟩
      simp only [List.take_append_of_le_length unapplied]
      exact List.append_nil _
    | apply _ ety idx place next =>
      obtain ⟨below, -⟩ := List.getElem?_eq_some_iff.mp next
      refine ⟨below, ?_⟩
      simp only [Theory.take_succ_of_getElem? next, indexed_snoc, List.length_take_of_le inside,
        place]
      rfl
    | poll => exact ⟨inside, List.append_nil _⟩
    | outward _ outward =>
      refine ⟨inside, ?_⟩
      have nothing : appliedOf [c] = [] := by cases c <;> first | rfl | cases outward
      rw [nothing, List.append_nil]
    | free => exact ⟨inside, List.append_nil _⟩

end Run

theorem offers_run (es new : List (Entry ι α)) (front applied : Nat) (idx : Int)
    (place : idx = es.length) :
    Run ⟨es, front, applied⟩ (offers idx new) ⟨es ++ new, front, applied⟩ := by
  induction new generalizing es idx with
  | nil =>
    rw [List.append_nil]
    exact .nil _
  | cons e new ih =>
    have rest := ih (es ++ [e]) (idx + 1) (by rw [place, List.length_append]; rfl)
    rw [List.append_assoc] at rest
    exact .cons (.offer _ e idx place) rest

/-- A loop of pops that stops above what is applied. -/
theorem pops_run (k : Nat) (l : Log ι α) (front applied : Nat)
    (length : (l.entries.length : Int) = l.back) (above : (applied : Int) ≤ l.back - k) :
    Run ⟨l.entries, front, applied⟩
      ((logPopLoop k l).2.map fun p => Callback.logPop p.1 p.2)
      ⟨(logPopLoop k l).1.entries, front, applied⟩ := by
  induction k generalizing l with
  | zero => exact .nil _
  | succ k ih =>
    have place : (l.back - 1).toNat < l.entries.length := by omega
    have newest : l.entries[(l.back - 1).toNat]? = some (l.entries.get ⟨_, place⟩) :=
      List.getElem?_eq_getElem place
    generalize l.entries.get ⟨_, place⟩ = e at newest
    have whole : l.entries = l.entries.take (l.back - 1).toNat ++ [e] := by
      have all : l.entries.take ((l.back - 1).toNat + 1) = l.entries :=
        List.take_of_length_le (by omega)
      rw [← Theory.take_succ_of_getElem? newest, all]
    have short : (l.entries.take (l.back - 1).toNat).length = (l.back - 1).toNat :=
      List.length_take_of_le (by omega)
    rw [logPopLoop]
    simp only [newest, Option.toList_some, List.map_cons, List.map_nil, List.cons_append,
      List.nil_append]
    have first : Step ⟨l.entries, front, applied⟩ (.logPop e (l.back - 1))
        ⟨l.entries.take (l.back - 1).toNat, front, applied⟩ := by
      have step := Step.pop (l.entries.take (l.back - 1).toNat) e front applied
        (l.back - 1) (by omega) (by omega)
      rwa [← whole] at step
    have smaller := ih { l with
      back := l.back - 1, count := l.count - 1, entries := l.entries.take (l.back - 1).toNat }
      (by simp only; omega) (by simp only; omega)
    exact .cons first smaller

/-- The release of the oldest entries, in one piece or in two at the end of the ring. -/
theorem polls_run {l : Log ι α} (wf : l.Wf) {cnt : Int} (pos : 0 < cnt) (fits : cnt ≤ l.count)
    (applied : Nat) (done : l.front + cnt ≤ applied) :
    Run ⟨l.entries, l.front.toNat, applied⟩
      ((logPolled l cnt).map fun p => Callback.logPollBatch p.1 p.2)
      ⟨l.entries, (l.front + cnt).toNat, applied⟩ := by
  have length := wf.length_eq
  have count := wf.count_eq
  have nonneg := wf.front_nonneg
  have released : ((l.entries.drop l.front.toNat).take cnt.toNat).length = cnt.toNat := by
    rw [List.length_take_of_le]
    rw [List.length_drop]
    omega
  unfold logPolled pollCount
  simp only [if_neg (show ¬ cnt > l.count by omega)]
  split
  · have one := Step.poll ⟨l.entries, l.front.toNat, applied⟩
      ((l.entries.drop l.front.toNat).take cnt.toNat) l.front (by simp only; omega)
      (by rw [released]) (by simp only [released]; omega)
    rw [released] at one
    have target : l.front.toNat + cnt.toNat = (l.front + cnt).toNat := by omega
    simp only [target] at one
    exact .single one
  · rename_i wraps
    have inRing : 0 ≤ relPos l.front l.size := Int.emod_nonneg _ (by have := wf.size_pos; omega)
    have below : relPos l.front l.size < l.size := Int.emod_lt_of_pos l.front wf.size_pos
    have beyond : l.size < relPos l.front l.size + cnt := by
      by_contra inLap
      rw [relPos_add pos (by omega)] at wraps
      omega
    generalize part : (l.size - relPos l.front l.size).toNat = k
    have short : k ≤ cnt.toNat := by omega
    have place : l.front + (l.size - relPos l.front l.size) = ((l.front.toNat + k : Nat) : Int) := by
      omega
    have former : (((l.entries.drop l.front.toNat).take cnt.toNat).take k).length = k := by
      rw [List.length_take_of_le]
      omega
    have latter : (((l.entries.drop l.front.toNat).take cnt.toNat).drop k).length = cnt.toNat - k := by
      rw [List.length_drop, released]
    have first := Step.poll ⟨l.entries, l.front.toNat, applied⟩
      (((l.entries.drop l.front.toNat).take cnt.toNat).take k) l.front
      (by simp only; omega) (by rw [former, List.take_take, Nat.min_eq_left short])
      (by simp only [former]; omega)
    have second := Step.poll ⟨l.entries, l.front.toNat + k, applied⟩
      (((l.entries.drop l.front.toNat).take cnt.toNat).drop k)
      (l.front + (l.size - relPos l.front l.size)) place
      (by rw [latter, List.drop_take, List.drop_drop, Nat.add_comm])
      (by simp only [latter]; omega)
    rw [former] at first
    rw [latter] at second
    have target : l.front.toNat + k + (cnt.toNat - k) = (l.front + cnt).toNat := by omega
    simp only [target] at second
    exact .cons first (.single second)

end Journal

/-! ## The callbacks of a server -/

/-- The log of a server, as a listener would keep it. -/
def Server.journal (s : Server ι α) : Journal ι α :=
  ⟨s.log.entries, s.log.front.toNat, s.lastAppliedIdx.toNat⟩

/-- The callbacks between `s` and `t` tell how the one's log became the other's. -/
def Tells (s t : Server ι α) : Prop :=
  ∃ cs, t.calls = s.calls ++ cs ∧ Journal.Run s.journal cs t.journal

namespace Tells

variable {s t u : Server ι α}

theorem refl (s : Server ι α) : Tells s s := ⟨[], by simp, .nil _⟩

theorem trans (first : Tells s t) (second : Tells t u) : Tells s u := by
  obtain ⟨cs, calls, run⟩ := first
  obtain ⟨cs', calls', run'⟩ := second
  exact ⟨cs ++ cs', by rw [calls', calls, List.append_assoc], run.trans run'⟩

/-- The log is the same, and the callbacks say nothing about it. -/
theorem of_outward (entries : t.log.entries = s.log.entries) (front : t.log.front = s.log.front)
    (applied : t.lastAppliedIdx = s.lastAppliedIdx)
    (calls : ∃ cs, t.calls = s.calls ++ cs ∧ ∀ c ∈ cs, c.outward) : Tells s t := by
  obtain ⟨cs, extended, outward⟩ := calls
  have same : t.journal = s.journal := by rw [Server.journal, entries, front, applied]; rfl
  refine ⟨cs, extended, ?_⟩
  rw [same]
  exact .silent fun c member => .outward _ (outward c member)

variable [DecidableEq ι]

set_option linter.unusedSectionVars false

theorem applied {ety : Entry ι α} (chain : IndexChain s) (next : AppliedNext s t ety) :
    Tells s t := by
  have nonneg := chain.wf.front_nonneg
  have front := chain.front_le
  have at_ := chain.wf.getAtIdx_some next.found
  have place : (s.lastAppliedIdx + 1 - 1).toNat = s.lastAppliedIdx.toNat := by omega
  have grown : (s.lastAppliedIdx + 1).toNat = s.lastAppliedIdx.toNat + 1 := by omega
  rw [place] at at_
  rw [next.core]
  refine ⟨[.applylog ety s.lastAppliedIdx], rfl, .single ?_⟩
  have step := Journal.Step.apply s.journal ety s.lastAppliedIdx
    (by simp only [Server.journal]; omega) at_
  unfold Server.journal at step ⊢
  simp only [grown]
  exact step

theorem compacted (chain : IndexChain s) : Tells s s.compactLog := by
  unfold Server.compactLog
  split
  · exact refl s
  · rename_i enough
    have base := chain.base_le
    have target := chain.target_pos
    have behind := chain.compacted
    have nonneg := chain.wf.front_nonneg
    obtain ⟨cnt, fits⟩ := chain.compacts enough
    simp only [cnt]
    refine ⟨_, rfl, ?_⟩
    have run := Journal.polls_run chain.wf (show 0 < s.logTarget by omega) fits
      s.lastAppliedIdx.toNat (by omega)
    rw [Server.journal, Server.journal, logPollBatch_eq fits]
    exact run

theorem truncated {idx : Int} (chain : IndexChain s) (above : s.commitIdx < idx)
    (inside : idx ≤ s.log.back) : Tells s (s.truncate idx) := by
  have front := chain.front_le
  have low := chain.applied_le
  have nonneg := chain.wf.front_nonneg
  refine ⟨_, rfl, ?_⟩
  have run := Journal.pops_run (s.log.back - (idx - 1)).toNat s.log s.log.front.toNat
    s.lastAppliedIdx.toNat chain.wf.length_eq (by omega)
  have kept : (s.truncate idx).log.front = s.log.front := by
    change (logDelete s.log idx).1.front = _
    rw [logDelete_log chain.wf (by omega) inside]
  rw [Server.journal, Server.journal, kept]
  exact run

theorem appended {es : List (Entry ι α)} (chain : IndexChain s) (appended : Appended s t es) :
    Tells s t := by
  have core := appended.core
  rw [applyCfg_core] at core
  have applied : t.lastAppliedIdx = s.lastAppliedIdx := by rw [core]
  have calls : t.calls = s.calls ++ offers s.log.back es := by rw [core]
  refine ⟨_, calls, ?_⟩
  rw [Server.journal, Server.journal, applied, appended.grown.entries_eq, appended.grown.front_eq]
  exact Journal.offers_run _ _ _ _ _ chain.wf.length_eq.symm

end Tells

section Steps

variable [DecidableEq ι] {env : Env α} {input : Input ι α} {s t : Server ι α}

theorem Light.tells (act : Light env input s t) (chain : IndexChain s) : Tells s t := by
  rcases act.kinds with calm | ⟨ety, next⟩ | ⟨-, rfl⟩
  · exact .of_outward calm.entries calm.front calm.lastAppliedIdx calm.calls
  · exact .applied chain next
  · exact .compacted chain

omit [DecidableEq ι] in
theorem Quiet.tells (quiet : Quiet s t) : Tells s t :=
  .of_outward (by rw [quiet.log]) (by rw [quiet.log]) quiet.lastAppliedIdx quiet.calls

theorem tells_taken {ae : MsgAppendentries ι α} {i : Nat} {cut : Option Int} (chain : IndexChain s)
    (scan : Scan s ae i cut) : Tells s (s.taken ae i cut) := by
  have shorter : Tells s (s.cutAt cut) := by
    cases cut with
    | none => exact .refl s
    | some idx =>
      obtain ⟨above, inside⟩ := scan.cut_inside
      exact .truncated chain above inside
  obtain ⟨s₁, appended, written⟩ := acceptEntries_spec (s.cutAt cut) scan.short
  refine (shorter.trans (.appended (advances_cutAt scan chain).1 appended)).trans ?_
  rw [Server.taken, written]
  refine ⟨_, rfl, .silent fun c member => ?_⟩
  obtain ⟨e, -, rfl⟩ := List.mem_map.mp member
  exact .free _ e

theorem Writes.tells (act : Writes env input s t) (chain : IndexChain s) : Tells s t := by
  cases act with
  | @submit _ _ _ s₁ s₂ es early _ submitted =>
    have appended : Tells s s₁ := Tells.appended (s := { s with votingCfgChangeLogIdx := early })
      ((advances_voting s early chain).1) submitted.appended
    refine (appended.trans submitted.sent.quiet.tells).trans ?_
    rw [submitted.ends]
    exact ⟨[], by simp, .nil _⟩
  | cut _ _ found _ above => exact .truncated chain above (logGetAtIdx_bounds found).2
  | take _ _ _ scan => exact tells_taken chain scan

theorem tells_step {l : Env α × Input ι α} (chain : IndexChain s) (taken : s.step l = some t) :
    Tells s t := by
  have kept := (step_course taken).keeps (I := fun t => Tells s t ∧ IndexChain t)
    (fun _ _ kept act => ⟨kept.1.trans (act.tells kept.2), (act.advances kept.2).1⟩)
    (fun _ _ kept _ act => ⟨kept.1.trans (act.tells kept.2), (act.advances kept.2).1⟩)
    ⟨.refl s, chain⟩
  exact kept.1

/-- The callbacks of a run tell the whole story of the log. -/
theorem journal_run {ok : Server ι α → Env α × Input ι α → Prop} {s₀ : Server ι α}
    (fresh : Fresh s₀) (run : Path Server.step ok s₀ s) :
    Journal.Run .empty s.calls s.journal ∧ IndexChain s := by
  refine run.keeps (I := fun t => Journal.Run .empty t.calls t.journal ∧ IndexChain t) ?_ ?_
  · refine ⟨?_, fresh.indexChain⟩
    rw [fresh.calls, Server.journal, fresh.log, fresh.lastAppliedIdx]
    exact .nil _
  · rintro t l u ⟨told, chain⟩ - taken
    obtain ⟨cs, calls, more⟩ := tells_step chain taken
    rw [calls]
    exact ⟨told.trans more, (advances_step taken chain).1⟩

end Steps

end Cyclone.Raft
