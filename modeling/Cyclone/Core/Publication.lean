/-
# Core.Publication — what a quorum publishes about its term

Each monitor thread publishes the term of its raft server and whether it leads, in one word, and other
threads read the words of all quorums.  Within a term a leader stays leader, whatever it receives
(`Reigns`), so the word never falls once it was published.

* `takeSnapshot_consistent`: when the two passes of `take_snapshot` agree, the words were all at the
  values read at the moment between the passes.
* `kicker_first`: no request enters the log with a term whose kicker is not in it, in every run of one of
  several replicas, and in every run of a single one that publishes only while its raft server leads.
* `kicker_skipped`: a single replica publishes before its raft server leads, and a request is the
  first entry of its term.
-/
import Cyclone.Core.Ownership
import Cyclone.Raft.Batch
import Mathlib.Algebra.Group.Int.Defs
import Mathlib.Algebra.Group.Nat.Defs

namespace Cyclone.Core

open Cyclone.Raft
open Cyclone.Theory (Path exec anyStep)

set_option autoImplicit false

variable {ι α : Type} [DecidableEq ι]

set_option linter.unusedSectionVars false

/-! ## Terms and leadership -/

/-- The term did not fall, and a leader that is in the same term leads it. -/
structure Reigns (s t : Server ι α) : Prop where
  replicas : t.replicas = s.replicas
  term : s.currentTerm ≤ t.currentTerm
  leads : t.currentTerm = s.currentTerm → s.state = .leader → t.state = .leader

namespace Reigns

variable {s t u : Server ι α}

theorem of_same (replicas : t.replicas = s.replicas) (term : t.currentTerm = s.currentTerm)
    (state : t.state = s.state) : Reigns s t :=
  ⟨replicas, le_of_eq term.symm, fun _ leader => state.trans leader⟩

theorem refl (s : Server ι α) : Reigns s s := of_same rfl rfl rfl

theorem trans (first : Reigns s t) (second : Reigns t u) : Reigns s u := by
  refine ⟨second.replicas.trans first.replicas, first.term.trans second.term, fun same leader => ?_⟩
  have low := first.term
  have high := second.term
  exact second.leads (by omega) (first.leads (by omega) leader)

theorem appended {es : List (Entry ι α)} (appended : Appended s t es) : Reigns s t := by
  refine of_same ?_ ?_ ?_ <;> rw [appended.core, applyCfg_core]

theorem sent {who : ι → Prop} (sent : Sent who s t) : Reigns s t := by
  refine of_same ?_ ?_ ?_ <;> rw [sent.core]

theorem becomeLeader (env : Env α) (s : Server ι α) : Reigns s (s.raftBecomeLeader env) := by
  have led : (s.raftBecomeLeader env).replicas = s.replicas ∧
      (s.raftBecomeLeader env).currentTerm = s.currentTerm ∧
      (s.raftBecomeLeader env).state = .leader := by
    unfold Server.raftBecomeLeader
    apply forNodes_keeps (I := fun t : Server ι α => t.replicas = s.replicas ∧
      t.currentTerm = s.currentTerm ∧ t.state = .leader)
    · intro t nd led _
      split
      · exact led
      · rw [(sent_raftSendAppendentries env (fun _ => True) _ nd.id trivial).core]
        exact led
    · exact ⟨rfl, rfl, rfl⟩
  exact ⟨led.1, le_of_eq led.2.1.symm, fun _ _ => led.2.2⟩

variable {env : Env α} {input : Input ι α}

theorem light (act : Light env input s t) : Reigns s t := by
  cases act with
  | sent sent => exact .sent sent
  | hint => exact .of_same rfl rfl rfl
  | raise later =>
    unfold Server.setCurrentTerm
    rw [if_pos later]
    exact ⟨rfl, le_of_lt later, fun same => absurd same (ne_of_gt later)⟩
  | giveUp candidate =>
    refine ⟨rfl, le_refl _, fun _ leader => ?_⟩
    rw [candidate] at leader
    cases leader
  | stand below =>
    obtain ⟨cs, after, -⟩ := raftBecomeCandidate_spec env s
    rw [after]
    exact ⟨rfl, by simp only; omega, fun _ leader => absurd leader below⟩
  | vote => exact .of_same rfl rfl rfl
  | flag => exact .of_same rfl rfl rfl
  | win => exact .becomeLeader env s
  | alone => exact .becomeLeader env s
  | matched => exact .of_same rfl rfl rfl
  | sufficient => exact .of_same rfl rfl rfl
  | advance advanced =>
    rw [(advanceCommit_commits advanced).core]
    exact .of_same rfl rfl rfl
  | follow _ followed =>
    rw [(followCommit_commits followed).core]
    exact .of_same rfl rfl rfl
  | apply next =>
    rw [next.core]
    exact .of_same rfl rfl rfl
  | checkpoint => exact .of_same rfl rfl rfl
  | compact =>
    unfold Server.compactLog
    split <;> exact .of_same rfl rfl rfl

theorem write (act : Writes env input s t) : Reigns s t := by
  cases act with
  | submit _ submitted =>
    have written := Reigns.appended submitted.appended
    have grown : Reigns s _ := ⟨written.replicas, written.term, written.leads⟩
    rw [submitted.ends]
    exact (grown.trans (.sent submitted.sent)).trans (.of_same rfl rfl rfl)
  | cut => exact .of_same rfl rfl rfl
  | @take _ ae _ _ _ _ i cut scan =>
    have short : Reigns s (s.cutAt cut) := by cases cut <;> exact .of_same rfl rfl rfl
    obtain ⟨s₁, appended, accepted⟩ := acceptEntries_spec (s.cutAt cut) scan.short
    rw [Server.taken, accepted]
    exact (short.trans (.appended appended)).trans (.of_same rfl rfl rfl)

/-- Whatever a server is called with. -/
theorem step {l : Env α × Input ι α} (taken : s.step l = some t) : Reigns s t :=
  (step_course taken).keeps (I := Reigns s) (fun _ _ reigns act => reigns.trans (.light act))
    (fun _ _ reigns _ act => reigns.trans (.write act)) (.refl s)

end Reigns

/-- `(current_term << 1) + is_leader`. -/
def word (s : Server ι α) : Int := 2 * s.currentTerm + if s.cycloneIsLeader then 1 else 0

theorem Reigns.word_le {s t : Server ι α} (reigns : Reigns s t) : word s ≤ word t := by
  have flag : t.currentTerm = s.currentTerm → s.cycloneIsLeader = true →
      t.cycloneIsLeader = true := by
    intro same leader
    simp only [Server.cycloneIsLeader, decide_eq_true_eq, reigns.replicas] at leader ⊢
    exact leader.imp_right (reigns.leads same)
  have term := reigns.term
  unfold word
  by_cases same : t.currentTerm = s.currentTerm
  · have kept := flag same
    split
    · rename_i leader
      rw [if_pos (kept leader)]
      omega
    · split <;> omega
  · split <;> split <;> omega

/-! ## Two passes over the words -/

/-- A quorum's raft server, and `cyclone_handle->snapshot`. -/
structure Quorum (ι α : Type) where
  srv : Server ι α
  snapshot : Nat

/-- `publish_snapshot`. -/
def Quorum.publish (q : Quorum ι α) : Quorum ι α :=
  { q with snapshot := (word q.srv % 2 ^ 32).toNat }

/-- Where a call of `take_snapshot` is. -/
inductive Phase where
  | first (i : Nat)
  | second (i : Nat)
  | returned (stable : Bool)
deriving DecidableEq, Repr

/-- The quorums of a machine, and a thread in `take_snapshot` with its array. -/
structure Machine (n : Nat) (ι α : Type) where
  quorums : Fin n → Quorum ι α
  snapshot : Nat → Nat
  phase : Phase

inductive MachineAct (n : Nat) (ι α : Type) where
  | serve (i : Fin n) (l : Env α × Input ι α)
  | publish (i : Fin n)
  | call
  | read

def MachineAct.calls {n : Nat} : MachineAct n ι α → Bool
  | .call => true
  | _ => false

namespace Machine

variable {n : Nat}

/-- `~1L` in an `unsigned int`. -/
def unpublished : Nat := 2 ^ 32 - 2

theorem unpublished_even : unpublished % 2 = 0 := by decide

/-- The words before the first publications. -/
def boot (srv : Fin n → Server ι α) : Machine n ι α :=
  ⟨fun i => ⟨srv i, unpublished⟩, fun _ => 0, .returned false⟩

/-- The next access of `take_snapshot` to a word, or the end of a loop. -/
def read (w : Machine n ι α) : Option (Machine n ι α) :=
  match w.phase with
  | .first i =>
    if h : i < n then
      let v := (w.quorums ⟨i, h⟩).snapshot
      let w := { w with snapshot := Function.update w.snapshot i v }
      if v % 2 = 0 then some { w with phase := .returned false }
      else some { w with phase := .first (i + 1) }
    else some { w with phase := .second 0 }
  | .second i =>
    if h : i < n then
      if w.snapshot i ≠ (w.quorums ⟨i, h⟩).snapshot then some { w with phase := .returned false }
      else some { w with phase := .second (i + 1) }
    else some { w with phase := .returned true }
  | .returned _ => none

def step (w : Machine n ι α) : MachineAct n ι α → Option (Machine n ι α)
  | .serve i l => ((w.quorums i).srv.step l).map fun srv =>
      { w with quorums := Function.update w.quorums i { w.quorums i with srv := srv } }
  | .publish i => some { w with quorums := Function.update w.quorums i (w.quorums i).publish }
  | .call => match w.phase with
    | .returned _ => some { w with phase := .first 0 }
    | _ => none
  | .read => w.read

/-- Terms are below 2^31 when they are published. -/
def Small (w : Machine n ι α) : MachineAct n ι α → Prop
  | .publish i => (w.quorums i).srv.currentTerm < 2 ^ 31
  | _ => True

instance (w : Machine n ι α) : ∀ l, Decidable (w.Small l)
  | .publish i => inferInstanceAs (Decidable ((w.quorums i).srv.currentTerm < 2 ^ 31))
  | .serve _ _ | .call | .read => isTrue trivial

/-- The call goes on. -/
def During (w : Machine n ι α) (l : MachineAct n ι α) : Prop := w.Small l ∧ l.calls = false

instance (w : Machine n ι α) (l : MachineAct n ι α) : Decidable (w.During l) :=
  inferInstanceAs (Decidable (_ ∧ _))

end Machine

/-- The word was published, is at least `v`, and is not ahead of the raft server. -/
structure Above (v : Nat) (q : Quorum ι α) : Prop where
  term : 0 ≤ q.srv.currentTerm
  least : v ≤ q.snapshot
  behind : (q.snapshot : Int) ≤ word q.srv

/-- A word that is odd was published. -/
def Quorum.Sound (q : Quorum ι α) : Prop :=
  0 ≤ q.srv.currentTerm ∧ (q.snapshot % 2 = 1 → Above q.snapshot q)

section Words

variable {n : Nat} {w w' : Machine n ι α} {l : MachineAct n ι α} {i : Fin n} {q : Quorum ι α}
  {v : Nat}

/-- The word of a term below 2^31 is what it says. -/
theorem publish_word (term : 0 ≤ q.srv.currentTerm) (small : q.srv.currentTerm < 2 ^ 31) :
    (q.publish.snapshot : Int) = word q.srv := by
  have range : 0 ≤ word q.srv ∧ word q.srv < 2 ^ 32 := by
    unfold word
    split <;> omega
  rw [Quorum.publish]
  simp only
  rw [Int.emod_eq_of_lt range.1 range.2, Int.toNat_of_nonneg range.1]

theorem Above.serve (above : Above v q) {srv : Server ι α} (reigns : Reigns q.srv srv) :
    Above v { q with srv := srv } :=
  ⟨above.term.trans reigns.term, above.least, above.behind.trans reigns.word_le⟩

theorem Above.publish (above : Above v q) (small : q.srv.currentTerm < 2 ^ 31) :
    Above v q.publish := by
  have published := publish_word above.term small
  have least := above.least
  have behind := above.behind
  exact ⟨above.term, by omega, le_of_eq published⟩

/-- What a step does to a quorum. -/
theorem quorum_cases (small : w.Small l) (taken : w.step l = some w') (i : Fin n) :
    w'.quorums i = w.quorums i ∨
    (∃ srv, Reigns (w.quorums i).srv srv ∧ w'.quorums i = { w.quorums i with srv := srv }) ∨
    ((w.quorums i).srv.currentTerm < 2 ^ 31 ∧ w'.quorums i = (w.quorums i).publish) := by
  cases l with
  | serve j act =>
    obtain ⟨srv, served, rfl⟩ := Option.map_eq_some_iff.mp taken
    by_cases here : i = j
    · subst here
      exact .inr (.inl ⟨srv, .step served, Function.update_self ..⟩)
    · exact .inl (Function.update_of_ne here ..)
  | publish j =>
    cases taken
    by_cases here : i = j
    · subst here
      exact .inr (.inr ⟨small, Function.update_self ..⟩)
    · exact .inl (Function.update_of_ne here ..)
  | call =>
    simp only [Machine.step] at taken
    split at taken
    · cases taken
      exact .inl rfl
    · cases taken
  | read =>
    simp only [Machine.step, Machine.read] at taken
    split at taken
    · split at taken
      · split at taken <;> cases taken <;> exact .inl rfl
      · cases taken
        exact .inl rfl
    · split at taken
      · split at taken <;> cases taken <;> exact .inl rfl
      · cases taken
        exact .inl rfl
    · cases taken

theorem Above.step (above : Above v (w.quorums i)) (small : w.Small l)
    (taken : w.step l = some w') : Above v (w'.quorums i) := by
  obtain same | ⟨srv, reigns, same⟩ | ⟨low, same⟩ := quorum_cases small taken i <;> rw [same]
  · exact above
  · exact above.serve reigns
  · exact above.publish low

theorem Quorum.Sound.step (sound : (w.quorums i).Sound) (small : w.Small l)
    (taken : w.step l = some w') : (w'.quorums i).Sound := by
  obtain same | ⟨srv, reigns, same⟩ | ⟨low, same⟩ := quorum_cases small taken i <;> rw [same]
  · exact sound
  · exact ⟨sound.1.trans reigns.term, fun odd => (sound.2 odd).serve reigns⟩
  · exact ⟨sound.1, fun _ => ⟨sound.1, le_refl _, le_of_eq (publish_word sound.1 low)⟩⟩

end Words

/-- A call of `take_snapshot` that started at `w₀`. -/
def Machine.Reading {n : Nat} (w₀ w : Machine n ι α) : Prop :=
  match w.phase with
  | .first k => ∀ i : Fin n, i < k → w.snapshot i % 2 = 1 ∧ Above (w.snapshot i) (w.quorums i)
  | .second k => ∃ m, Path Machine.step Machine.During w₀ m ∧ Path Machine.step Machine.During m w ∧
      (∀ i : Fin n, w.snapshot i % 2 = 1 ∧ Above (w.snapshot i) (m.quorums i) ∧
        Above (m.quorums i).snapshot (w.quorums i)) ∧
      ∀ i : Fin n, i < k → (m.quorums i).snapshot = w.snapshot i
  | .returned true => ∃ m, Path Machine.step Machine.During w₀ m ∧
      Path Machine.step Machine.During m w ∧
      ∀ i : Fin n, (m.quorums i).snapshot = w.snapshot i ∧ w.snapshot i % 2 = 1
  | .returned false => True

namespace Machine.Reading

variable {n : Nat} {w₀ w w' : Machine n ι α} {l : MachineAct n ι α}

/-- Other threads move between two accesses. -/
theorem others (reading : w₀.Reading w) (during : w.During l) (taken : w.step l = some w')
    (phase : w'.phase = w.phase) (array : w'.snapshot = w.snapshot) : w₀.Reading w' := by
  have kept : ∀ {v i}, Above v (w.quorums i) → Above v (w'.quorums i) :=
    fun above => above.step during.1 taken
  unfold Reading at reading ⊢
  rw [phase, array]
  split at reading
  · exact fun i low => ⟨(reading i low).1, kept (reading i low).2⟩
  · obtain ⟨m, before, after, above, same⟩ := reading
    exact ⟨m, before, after.tail during taken,
      fun i => ⟨(above i).1, (above i).2.1, kept (above i).2.2⟩, same⟩
  · obtain ⟨m, before, after, same⟩ := reading
    exact ⟨m, before, after.tail during taken, same⟩
  · trivial

/-- The next access. -/
theorem access (path : Path Machine.step During w₀ w) (sound : ∀ i, (w.quorums i).Sound)
    (reading : w₀.Reading w) (taken : w.read = some w') : w₀.Reading w' := by
  have during : w.During .read := ⟨trivial, rfl⟩
  have stepped : w.step .read = some w' := taken
  unfold Reading at reading
  unfold Machine.read at taken
  split at taken
  · rename_i k at_
    simp only [at_] at reading
    split at taken
    · rename_i low
      simp only at taken
      split at taken
      · cases taken
        trivial
      · rename_i odd
        cases taken
        intro i below
        have odd' : (w.quorums ⟨k, low⟩).snapshot % 2 = 1 := by omega
        by_cases here : (i : Nat) = k
        · obtain rfl : i = ⟨k, low⟩ := Fin.ext here
          simp only [Function.update_self]
          exact ⟨odd', (sound _).2 odd'⟩
        · simp only [Function.update_of_ne here]
          exact reading i (by omega)
    · rename_i whole
      cases taken
      refine ⟨w, path, .tail .refl during stepped, fun i => ?_, fun i below => ?_⟩
      · obtain ⟨odd, above⟩ := reading i (by omega)
        exact ⟨odd, above, above.term, le_refl _, above.behind⟩
      · exact absurd below (Nat.not_lt_zero _)
  · rename_i k at_
    simp only [at_] at reading
    obtain ⟨m, before, after, above, same⟩ := reading
    split at taken
    · rename_i low
      split at taken
      · cases taken
        trivial
      · rename_i equal
        cases taken
        refine ⟨m, before, after.tail during stepped, above, fun i below => ?_⟩
        by_cases here : (i : Nat) = k
        · obtain rfl : i = ⟨k, low⟩ := Fin.ext here
          have low' := (above ⟨k, low⟩).2.1.least
          have high := (above ⟨k, low⟩).2.2.least
          simp only at low' ⊢
          omega
        · exact same i (by omega)
    · rename_i whole
      cases taken
      exact ⟨m, before, after.tail during stepped, fun i => ⟨same i (by omega), (above i).1⟩⟩
  · cases taken

end Machine.Reading

/-- **Consistent cut.** A call of `take_snapshot` that returns 1 passed a moment at which every word was as
it is in the array, and said leader. -/
theorem takeSnapshot_consistent {n : Nat} {srv : Fin n → Server ι α} {w₀ w : Machine n ι α}
    (terms : ∀ i, 0 ≤ (srv i).currentTerm)
    (reached : Path Machine.step Machine.Small (Machine.boot srv) w₀) (called : w₀.phase = .first 0)
    (run : Path Machine.step Machine.During w₀ w) (stable : w.phase = .returned true) :
    ∃ m, Path Machine.step Machine.During w₀ m ∧ Path Machine.step Machine.During m w ∧
      ∀ i : Fin n, (m.quorums i).snapshot = w.snapshot i ∧ w.snapshot i % 2 = 1 := by
  have start : ∀ i, (w₀.quorums i).Sound :=
    reached.keeps (I := fun w : Machine n ι α => ∀ i, (w.quorums i).Sound)
      (fun i => ⟨terms i, fun odd => absurd odd (by simp [Machine.boot, Machine.unpublished_even])⟩)
      fun _ _ _ sound small taken i => (sound i).step small taken
  have kept : (∀ i, (w.quorums i).Sound) ∧ w₀.Reading w := by
    clear stable
    induction run with
    | refl =>
      refine ⟨start, ?_⟩
      simp only [Machine.Reading, called]
      exact fun i low => absurd low (Nat.not_lt_zero _)
    | @tail t u l path during taken ih =>
      refine ⟨fun i => (ih.1 i).step during.1 taken, ?_⟩
      cases l with
      | serve j act =>
        obtain ⟨srv, -, same⟩ := Option.map_eq_some_iff.mp taken
        exact ih.2.others during taken (by rw [← same]) (by rw [← same])
      | publish j => exact ih.2.others during taken (by cases taken; rfl) (by cases taken; rfl)
      | call =>
        obtain ⟨-, quiet⟩ := during
        cases quiet
      | read => exact ih.2.access path ih.1 taken
  have reading := kept.2
  simp only [Machine.Reading, stable] at reading
  exact reading

/-- Two lone voters, each of three replicas. -/
def pair : Fin 2 → Server (Fin 1) (List Nat) := fun _ => Server.boot 0 3 smallCfg [0]

/-- The first quorum publishes again between the passes. -/
theorem takeSnapshot_consistent_two : ∃ w₀ w m : Machine 2 (Fin 1) (List Nat),
    w₀.phase = .first 0 ∧ w.phase = .returned true ∧ w.snapshot 0 = 1 ∧
    Path Machine.step Machine.During w₀ m ∧ Path Machine.step Machine.During m w ∧
    ∀ i : Fin 2, (m.quorums i).snapshot = w.snapshot i ∧ w.snapshot i % 2 = 1 := by
  have before : ∃ w₀ ∈ exec Machine.step Machine.Small (Machine.boot pair)
      [.serve 0 (quietEnv [], .periodic 1), .serve 1 (quietEnv [], .periodic 1), .publish 0,
        .publish 1, .call], w₀.phase = .first 0 ∧
      ∃ w ∈ exec Machine.step Machine.During w₀ [.read, .read, .read, .publish 0, .read, .read, .read],
        w.phase = .returned true ∧ w.snapshot 0 = 1 := by
    decide +kernel
  obtain ⟨w₀, reached, called, after⟩ := Path.exists_of_exec before
  obtain ⟨w, run, stable, first⟩ := Path.exists_of_exec after
  obtain ⟨m, path, path', same⟩ :=
    takeSnapshot_consistent (by decide) reached called run stable
  exact ⟨w₀, w, m, called, stable, first, path, path', same⟩

/-! ## Kicker and requests -/

/-- The term of an entry that is offered to the log. -/
def offeredTerm : Callback ι α → Option Int
  | .logOffer e _ => some e.term
  | _ => none

/-- The terms a call appended entries with. -/
def offeredTerms (s t : Server ι α) : List Int :=
  (t.calls.drop s.calls.length).filterMap offeredTerm

section Batch

variable {env : Env α} {s t : Server ι α} {es : List (MsgEntry ι α)}
  {answer : Except EntryError (List MsgEntryResponse)}

theorem offeredTerms_refl (s : Server ι α) : offeredTerms s s = [] := by
  rw [offeredTerms, List.drop_length, List.filterMap_nil]

theorem filterMap_offers (idx : Int) (es : List (Entry ι α)) :
    (offers idx es).filterMap offeredTerm = es.map Entry.term := by
  induction es generalizing idx with
  | nil => rfl
  | cons e es ih => exact congrArg (e.term :: ·) (ih (idx + 1))

theorem filterMap_sends {cs : List (Callback ι α)} {s : Server ι α} {who : ι → Prop}
    (sends : ∀ c ∈ cs, ∃ id m, c = .sendAppendentries id m ∧ who id ∧ s.Sends m) :
    cs.filterMap offeredTerm = [] := by
  refine List.filterMap_eq_nil_iff.mpr fun c member => ?_
  obtain ⟨id, m, rfl, -, -⟩ := sends c member
  rfl

/-- `raft_recv_entry_batch` appends as the leader of its term, or not at all. -/
theorem raftRecvEntryBatch_offers (ran : s.raftRecvEntryBatch env es = .ok (t, answer)) :
    t.currentTerm = s.currentTerm ∧ t.cycloneIsLeader = s.cycloneIsLeader ∧
      (s.state = .leader ∧ offeredTerms s t = es.map (fun _ => s.currentTerm) ∨
        offeredTerms s t = [] ∧ (s.state = .leader → ∃ e ∈ es, e.type ≠ .normal)) := by
  unfold Server.raftRecvEntryBatch at ran
  split at ran
  · rename_i below
    cases ran
    exact ⟨rfl, rfl, .inr ⟨offeredTerms_refl s, fun leader => absurd leader below⟩⟩
  rename_i leader
  simp only at ran
  split at ran
  · rename_i refused
    cases ran
    refine ⟨rfl, rfl, .inr ⟨offeredTerms_refl s, fun _ => ?_⟩⟩
    by_contra normal
    simp only [not_exists, not_and, not_not] at normal
    have allNormal : ∀ e ∈ es.map (Server.entryOf s.currentTerm), e.type = .normal := by
      simpa [Server.entryOf] using normal
    rw [detectVotingCfgChange_normal allNormal] at refused
    cases refused
  rename_i detected _
  split at ran
  · cases ran
  cases ran
  have appended := raftAppendEntryBatch_spec { s with votingCfgChangeLogIdx := detected }
    (es.map (Server.entryOf s.currentTerm))
  generalize { s with votingCfgChangeLogIdx := detected }.raftAppendEntryBatch
    (es.map (Server.entryOf s.currentTerm)) = s₁ at appended ⊢
  have sent := sent_sendRound env s₁
  generalize s₁.sendRound env = s₂ at sent ⊢
  obtain ⟨cs, calls, sends⟩ := sent.sends
  have offered : offeredTerms s s₂ = es.map fun _ => s.currentTerm := by
    rw [offeredTerms, calls, appended.core]
    simp only
    rw [List.append_assoc, List.drop_left, List.filterMap_append, filterMap_sends sends,
      filterMap_offers, List.append_nil, stampFrom_map fun _ _ _ => rfl, List.map_map]
    rfl
  have term : s₂.currentTerm = s.currentTerm := by
    rw [sent.core, appended.core, applyCfg_core]
  have flag : s₂.cycloneIsLeader = s.cycloneIsLeader := by
    rw [sent.core, appended.core, applyCfg_core]
    rfl
  split <;> exact ⟨term, flag, .inl ⟨not_not.mp leader, offered⟩⟩

end Batch

/-- Who had an entry appended. -/
inductive Origin where
  | kicker
  | client
deriving DecidableEq, Repr

/-- The loop of `operator ()`: whether `publish_snapshot` was called since the raft server was last
called, and, for the record, what the kicker and `accept` appended. -/
structure Loop (ι : Type) where
  mon : Monitor ι
  published : Bool
  journal : List (Origin × Int)

/-- A part of a turn of the loop. -/
inductive LoopAct (ι : Type) where
  | raft (env : Env (List Nat)) (p : Incoming ι)
  | periodic (env : Env (List Nat)) (msec : Int)
  | publish (env : Env (List Nat))
  | accept (env : Env (List Nat)) (burst : List (Request ι))
  | transactions (env : Env (List Nat))
  | done (k : Nat)

namespace Loop

def boot (me : ι) (replicas : Nat) (cfg : Config) (active : List ι) : Loop ι :=
  ⟨.boot me replicas cfg active, false, []⟩

/-- The raft server gets a packet or a tick. -/
def served (w : Loop ι) (mon : Monitor ι) : Loop ι := { w with mon := mon, published := false }

/-- A call that may append. -/
def entered (w : Loop ι) (origin : Origin) (mon : Monitor ι) : Loop ι :=
  { w with
    mon := mon
    journal := w.journal ++ (offeredTerms w.mon.srv mon.srv).map (origin, ·) }

def step (executorThreads : Nat) (w : Loop ι) : LoopAct ι → Option (Loop ι)
  | .raft env p => (w.mon.step executorThreads (.raft env p)).map w.served
  | .periodic env msec => (w.mon.step executorThreads (.periodic env msec)).map w.served
  | .publish env => (w.mon.step executorThreads .publish).bind fun mon =>
      let next : Loop ι := { w with mon := mon, published := true }
      if mon.snapshot ≠ w.mon.snapshot ∧ mon.leads = true then
        (mon.step executorThreads (.kicker env)).map (next.entered .kicker)
      else some next
  | .accept env burst =>
    if w.published then (w.mon.step executorThreads (.accept env burst)).map (w.entered .client)
    else none
  | .transactions env =>
    if w.published then (w.mon.step executorThreads (.transactions env)).map (w.entered .client)
    else none
  | .done k => (w.mon.step executorThreads (.done k)).map fun mon => { w with mon := mon }

/-- Every request has its term's kicker before it. -/
def KickerFirst (w : Loop ι) : Prop :=
  ∀ before term after, w.journal = before ++ (.client, term) :: after → (.kicker, term) ∈ before

/-- A replica that is the only one publishes while its raft server leads.  With several replicas the flag
is the raft server's own state. -/
def Earned (w : Loop ι) : LoopAct ι → Prop
  | .publish _ => w.mon.srv.replicas = 1 → w.mon.srv.state = .leader
  | _ => True

instance (w : Loop ι) : ∀ a, Decidable (w.Earned a)
  | .publish _ =>
    inferInstanceAs (Decidable (w.mon.srv.replicas = 1 → w.mon.srv.state = .leader))
  | .raft _ _ | .periodic _ _ | .accept _ _ | .transactions _ | .done _ => isTrue trivial

end Loop

namespace Monitor

variable {executorThreads : Nat} {w w' : Monitor ι} {env : Env (List Nat)}

variable {multicore : Bool} {messages : List (Batch ι)} {p : Monitor ι × List (Batch ι)}

theorem acceptOne_kept {m : Nat} {r : Request ι}
    (ran : acceptOne executorThreads multicore w messages m r = some p) :
    p.1.srv = w.srv ∧ p.1.snapshot = w.snapshot := by
  have core : ∀ {q : Monitor ι × List (Batch ι)},
      (w.toCore executorThreads m r).map (·, messages) = some q →
      q.1.srv = w.srv ∧ q.1.snapshot = w.snapshot := by
    intro q done
    obtain ⟨v, entered, rfl⟩ := Option.map_eq_some_iff.mp done
    unfold toCore at entered
    split at entered
    · cases entered
      exact ⟨rfl, rfl⟩
    · cases entered
  unfold acceptOne at ran
  split at ran
  · cases ran
    exact ⟨rfl, rfl⟩
  · repeat' split at ran
    all_goals first | exact core ran | cases ran <;> exact ⟨rfl, rfl⟩

variable {rs : List (Nat × Request ι)}

theorem acceptAll_kept (ran : acceptAll executorThreads multicore w messages rs = some p) :
    p.1.srv = w.srv ∧ p.1.snapshot = w.snapshot := by
  induction rs generalizing w messages with
  | nil =>
    cases ran
    exact ⟨rfl, rfl⟩
  | cons r rs ih =>
    obtain ⟨q, one, rest⟩ := Option.bind_eq_some_iff.mp ran
    obtain ⟨srv, snapshot⟩ := acceptOne_kept one
    obtain ⟨srv', snapshot'⟩ := ih rest
    exact ⟨srv'.trans srv, snapshot'.trans snapshot⟩

/-- A call that may append leaves the term and the snapshot, and appends as the leader of its term. -/
structure Enters (w w' : Monitor ι) : Prop where
  snapshot : w'.snapshot = w.snapshot
  term : w'.srv.currentTerm = w.srv.currentTerm
  flag : w'.srv.cycloneIsLeader = w.srv.cycloneIsLeader
  offered : ∀ term ∈ offeredTerms w.srv w'.srv, term = w.srv.currentTerm ∧ w.srv.state = .leader

theorem enters_submit (ran : w.submit env messages = some w') : Enters w w' := by
  unfold submit at ran
  split at ran
  · cases ran
    exact ⟨rfl, rfl, rfl, by simp [offeredTerms_refl]⟩
  split at ran
  · cases ran
  rename_i srv answer submitted
  obtain ⟨term, flag, offered⟩ := raftRecvEntryBatch_offers submitted
  have entered : Enters w (w.absorb srv) := by
    refine ⟨rfl, term, flag, fun t member => ?_⟩
    obtain ⟨leader, terms⟩ | ⟨none_, -⟩ := offered
    · rw [show offeredTerms w.srv (w.absorb srv).srv = _ from terms] at member
      obtain ⟨-, -, rfl⟩ := List.mem_map.mp member
      exact ⟨rfl, leader⟩
    · rw [show offeredTerms w.srv (w.absorb srv).srv = _ from none_] at member
      cases member
  split at ran <;> cases ran <;> exact ⟨entered.snapshot, entered.term, entered.flag, entered.offered⟩

/-- The loop of `accept`, and its end. -/
theorem enters_accepted {v : Monitor ι} (srv : v.srv = w.srv) (snapshot : v.snapshot = w.snapshot)
    (ran : (acceptAll executorThreads multicore v [] rs).bind (fun p => p.1.submit env p.2) =
      some w') : Enters w w' := by
  obtain ⟨p, accepted, submitted⟩ := Option.bind_eq_some_iff.mp ran
  obtain ⟨srv', snapshot'⟩ := acceptAll_kept accepted
  obtain ⟨same, term, flag, offered⟩ := enters_submit submitted
  rw [srv', srv] at term flag offered
  exact ⟨same.trans (snapshot'.trans snapshot), term, flag, offered⟩

/-- The kicker of a leader is appended. -/
theorem kicker_offered (ran : w.step executorThreads (.kicker env) = some w')
    (leader : w.srv.state = .leader) :
    Enters w w' ∧ offeredTerms w.srv w'.srv = [w.srv.currentTerm] := by
  obtain ⟨srv, called, rfl⟩ := Option.map_eq_some_iff.mp ran
  unfold Server.step at called
  split at called
  · rename_i p handled
    cases called
    obtain ⟨⟨srv, answer⟩, submitted, rfl⟩ := Cyclone.Theory.ok_of_map handled
    obtain ⟨term, flag, ⟨-, terms⟩ | ⟨-, special⟩⟩ := raftRecvEntryBatch_offers submitted
    · refine ⟨⟨rfl, term, flag, fun t member => ?_⟩, terms⟩
      rw [show offeredTerms w.srv (w.absorb srv).srv = _ from terms] at member
      exact ⟨List.mem_singleton.mp member, leader⟩
    · obtain ⟨e, member, other⟩ := special leader
      cases List.mem_singleton.mp member
      exact absurd rfl other
  · cases called

/-- Packets and ticks leave the snapshot. -/
theorem raftPacket_snapshot {p : Incoming ι} (ran : w.raftPacket env p = some w') :
    w'.snapshot = w.snapshot := by
  unfold raftPacket at ran
  simp only at ran
  split at ran
  · cases ran
    rfl
  · unfold handleIncoming at ran
    split at ran
    · cases ran
    · split at ran
      · cases ran
      · split at ran <;> cases ran <;> rfl
    · split at ran <;> cases ran
      rfl

end Monitor

namespace Loop

variable {executorThreads : Nat} {w w' : Loop ι}

/-- The published word is up to date where requests are accepted, an odd word has its kicker, and so has
every request. -/
structure Kicked (w : Loop ι) : Prop where
  current : w.published = true → w.mon.snapshot = word w.mon.srv
  kicker : ∀ term, w.mon.snapshot = 2 * term + 1 → (.kicker, term) ∈ w.journal
  first : w.KickerFirst

/-- A journal that grows by requests of terms that have their kicker. -/
theorem KickerFirst.append (first : w.KickerFirst) {l : List (Origin × Int)}
    (known : ∀ term, (.client, term) ∈ l → (.kicker, term) ∈ w.journal)
    (journal : w'.journal = w.journal ++ l) : w'.KickerFirst := by
  intro before term after same
  rw [journal] at same
  obtain ⟨rest, rfl, tail⟩ | ⟨rest, grown, tail⟩ := List.append_eq_append_iff.mp same
  · exact List.mem_append_left _ (known term (by simp [tail]))
  · cases rest with
    | nil =>
      rw [List.append_nil] at grown
      exact grown ▸ known term (by simp [show l = _ from tail.symm])
    | cons x rest =>
      cases tail
      exact first before term rest grown

namespace Kicked

/-- Requests that are accepted while the published word is up to date. -/
theorem accepted (kicked : w.Kicked) (published : w.published = true) {mon : Monitor ι}
    (enters : w.mon.Enters mon) : (w.entered .client mon).Kicked := by
  have current := kicked.current published
  refine ⟨fun _ => ?_, fun term odd => ?_, kicked.first.append (fun term member => ?_) rfl⟩
  · change mon.snapshot = word mon.srv
    rw [word, enters.snapshot, enters.term, enters.flag]
    exact current
  · exact List.mem_append_left _ (kicker kicked term (enters.snapshot.symm.trans odd))
  · obtain ⟨t, offered, same⟩ := List.mem_map.mp member
    cases same
    obtain ⟨rfl, leader⟩ := enters.offered _ offered
    refine kicker kicked _ (current.trans ?_)
    rw [word, if_pos]
    simp [Server.cycloneIsLeader, leader]

/-- The snapshot is published, and the kicker of a new leader is appended. -/
theorem publish (kicked : w.Kicked) {env : Env (List Nat)} (earned : w.Earned (.publish env))
    (taken : w.step executorThreads (.publish env) = some w') : w'.Kicked := by
  rw [Loop.step] at taken
  obtain ⟨mon, published, taken⟩ := Option.bind_eq_some_iff.mp taken
  have srv : mon.srv = w.mon.srv := by
    cases published
    rfl
  have snapshot : mon.snapshot = word mon.srv := by
    cases published
    rfl
  simp only at taken
  have odd : ∀ term, mon.snapshot = 2 * term + 1 →
      w.mon.srv.cycloneIsLeader = true ∧ mon.srv.currentTerm = term := by
    intro term same
    rw [snapshot, word] at same
    rw [← srv]
    split at same
    · rename_i leads
      exact ⟨leads, by omega⟩
    · omega
  split at taken
  · rename_i changed
    obtain ⟨mon', kicked', rfl⟩ := Option.map_eq_some_iff.mp taken
    obtain ⟨leads, -⟩ := odd (mon.snapshot / 2) (by
      have := of_decide_eq_true changed.2
      omega)
    have leader : mon.srv.state = .leader := by
      rw [srv]
      exact (of_decide_eq_true leads).elim earned id
    obtain ⟨enters, terms⟩ := Monitor.kicker_offered kicked' leader
    have journal : (Loop.entered { w with mon := mon, published := true } .kicker mon').journal =
        w.journal ++ [(.kicker, mon.srv.currentTerm)] := by
      simp only [entered]
      rw [terms]
      rfl
    refine ⟨fun _ => ?_, fun term same => ?_, kicked.first.append (fun term member => ?_) journal⟩
    · change mon'.snapshot = word mon'.srv
      rw [word, enters.snapshot, enters.term, enters.flag]
      exact snapshot
    · rw [journal, (odd term (enters.snapshot.symm.trans same)).2]
      exact List.mem_append_right _ List.mem_cons_self
    · cases List.mem_singleton.mp member
  · rename_i same
    cases taken
    refine ⟨fun _ => snapshot, fun term now => kicker kicked term ?_, kicked.first⟩
    rw [← now]
    by_contra differs
    refine same ⟨fun equal => differs equal.symm, decide_eq_true ?_⟩
    simp only at now
    omega

theorem step (kicked : w.Kicked) {a : LoopAct ι} (earned : w.Earned a)
    (taken : w.step executorThreads a = some w') : w'.Kicked := by
  have quiet : ∀ {mon : Monitor ι} {published : Bool}, mon.snapshot = w.mon.snapshot →
      (published = true → mon.snapshot = word mon.srv) →
      Kicked (⟨mon, published, w.journal⟩ : Loop ι) := fun same current =>
    ⟨current, fun term odd => kicker kicked term (same.symm.trans odd), kicked.first⟩
  cases a with
  | raft env p =>
    obtain ⟨mon, ran, rfl⟩ := Option.map_eq_some_iff.mp taken
    exact quiet (Monitor.raftPacket_snapshot ran) fun early => by cases early
  | periodic env msec =>
    obtain ⟨mon, ran, rfl⟩ := Option.map_eq_some_iff.mp taken
    obtain ⟨srv, -, rfl⟩ := Option.map_eq_some_iff.mp ran
    exact quiet rfl fun early => by cases early
  | publish env => exact kicked.publish earned taken
  | accept env burst =>
    simp only [Loop.step] at taken
    split at taken
    · rename_i published
      obtain ⟨mon, ran, rfl⟩ := Option.map_eq_some_iff.mp taken
      simp only [Monitor.step] at ran
      split at ran
      · refine kicked.accepted published (Monitor.enters_accepted ?_ ?_ ran) <;> rfl
      · cases ran
    · cases taken
  | transactions env =>
    simp only [Loop.step] at taken
    split at taken
    · rename_i published
      obtain ⟨mon, ran, rfl⟩ := Option.map_eq_some_iff.mp taken
      refine kicked.accepted published (Monitor.enters_accepted ?_ ?_ ran) <;> rfl
    · cases taken
  | done k =>
    obtain ⟨mon, ran, rfl⟩ := Option.map_eq_some_iff.mp taken
    obtain ⟨m, -, rfl⟩ := Option.map_eq_some_iff.mp ran
    exact quiet rfl kicked.current

end Kicked

end Loop

/-- **Kicker first.** Whatever made the replica leader and whenever: each request that `accept` had appended in
a term comes after the kicker of that term, if a replica that is the only one publishes only while its
raft server leads. -/
theorem kicker_first (executorThreads : Nat) (me : ι) (replicas : Nat) (cfg : Config)
    (active : List ι) {w : Loop ι}
    (run : Path (Loop.step executorThreads) Loop.Earned (.boot me replicas cfg active) w) :
    w.KickerFirst := by
  refine (run.keeps (I := Loop.Kicked)
    ⟨fun early => (by cases early), fun term odd => ?_, fun before term after same => ?_⟩
    fun _ _ _ kicked earned taken => kicked.step earned taken).first
  · change (-2 : Int) = 2 * term + 1 at odd
    omega
  · simp [Loop.boot] at same

/-- A lone voter of three replicas leads, publishes and accepts a request. -/
theorem kicker_first_lone : ∃ w : Loop (Fin 1), w.journal = [(.kicker, 0), (.client, 0)] ∧
    w.KickerFirst := by
  have ran : ∃ w ∈ exec (Loop.step 1) Loop.Earned (.boot (0 : Fin 1) 3 smallCfg [0])
      [.publish (quietEnv []), .periodic (quietEnv []) 1, .publish (quietEnv []),
        .accept (quietEnv []) [Monitor.askFor none false 1]],
      w.journal = [(.kicker, 0), (.client, 0)] := by
    decide +kernel
  obtain ⟨w, run, journal⟩ := Path.exists_of_exec ran
  exact ⟨w, journal, kicker_first 1 0 3 smallCfg [0] run⟩

/-- The only replica publishes before its first tick: the kicker is refused, and the word does not change
when the raft server becomes leader. -/
theorem kicker_skipped : ∃ w : Loop (Fin 1),
    Path (Loop.step 1) anyStep (.boot (0 : Fin 1) 1 smallCfg [0]) w ∧
      w.journal = [(.client, 0)] ∧ ¬ w.KickerFirst := by
  have ran : ∃ w ∈ exec (Loop.step 1) anyStep (.boot (0 : Fin 1) 1 smallCfg [0])
      [.publish (quietEnv []), .periodic (quietEnv []) 1, .publish (quietEnv []),
        .accept (quietEnv []) [Monitor.askFor none false 1]], w.journal = [(.client, 0)] := by
    decide +kernel
  obtain ⟨w, run, journal⟩ := Path.exists_of_exec ran
  refine ⟨w, run, journal, fun first => ?_⟩
  exact absurd (first [] 0 [] journal) List.not_mem_nil

end Cyclone.Core
