/-
# Core.Agreement — what the replicas run and keep

What a core has run is committed (`ran_committed`), so two things follow for the clients of a site,
in orderly runs: the replicas run the same updates in the same order, at whatever moments they are
compared, and an update that was answered stays in the logs of a majority.
-/
import Cyclone.Cluster.Completeness
import Cyclone.Core.Reads

namespace Cyclone.Core

open Cyclone.Raft Cyclone.Theory

set_option autoImplicit false

variable {n : Nat} {π : Type} {w w' : Site n π}

/-! ## The same updates -/

/-- Committed logs are comparable. -/
theorem Covered.comparable {c : Cluster n (List (Rpc π))} {g : History n (List (Rpc π))}
    (sim : Sim .safe c g) {t t' : Int} {l l' : List (LogEntry (Fin n) π)} (left : Covered g t l)
    (right : Covered g t' l') : l <+: l' ∨ l' <+: l := by
  rcases left with rfl | ⟨u, m, -, committed, inside⟩
  · exact Or.inl List.nil_prefix
  · rcases right with rfl | ⟨u', m', -, committed', inside'⟩
    · exact Or.inr List.nil_prefix
    · rcases (sim.safe trivial).agreement sim.matched committed committed' with pre | pre
      · exact List.prefix_or_prefix_of_prefix (inside.trans pre) inside'
      · exact List.prefix_or_prefix_of_prefix inside (inside'.trans pre)

theorem updates_mono {ι : Type} (c : Nat) {l l' : List (LogEntry ι π)} (pre : l <+: l') :
    (indexed l).flatMap (updatesOf c) <+: (indexed l').flatMap (updatesOf c) := by
  rw [List.prefix_iff_eq_take.mp pre, indexed_take]
  obtain ⟨rest, same⟩ := List.take_prefix l.length (indexed l')
  refine ⟨rest.flatMap (updatesOf c), ?_⟩
  rw [← List.flatMap_append, same]

/-- **Replicas run the same updates.**  In an orderly run: what a running replica has run on a core
at one moment and what another has run on it at a later one are the same updates in the same order,
as far as the shorter of the two goes. -/
theorem replicas_run_alike (cfg : Fin n → Config) (target : ∀ i, 1 ≤ (cfg i).logTarget)
    (run : Path Site.step Site.Orderly (Site.initial cfg) w)
    (later : Path Site.step Site.Orderly w w') {p q : Fin n} (upP : w.cluster.up p = true)
    (upQ : w'.cluster.up q = true) (c : Nat) :
    ((w.exec p).cores c).ran <+: ((w'.exec q).cores c).ran ∨
      ((w'.exec q).cores c).ran <+: ((w.exec p).cores c).ran := by
  by_cases other : p = q
  · subst other
    exact Or.inl (ran_run later p c)
  · have two := two_le_of_ne other
    obtain ⟨g, -, sound⟩ := sound_run two (sound_initial cfg target) run
    obtain ⟨g', le, sound'⟩ := sound_run two sound later
    obtain ⟨old, covered, ran⟩ := ran_committed sound upP c
    obtain ⟨old', covered', ran'⟩ := ran_committed sound' upQ c
    have still := covered.mono sound.sim.matched le (le_refl _)
    rcases Covered.comparable sound'.sim still covered' with pre | pre
    · exact List.prefix_or_prefix_of_prefix (ran.trans (updates_mono c pre)) ran'
    · exact List.prefix_or_prefix_of_prefix ran (ran'.trans (updates_mono c pre))

/-- The update server 1 ran in term 2 server 2 has run in term 3. -/
theorem replicas_run_alike_succession : ∃ w w' : Site 3 Nat,
    ((w.exec 1).cores 0).ran ≠ [] ∧ ((w'.exec 2).cores 0).ran ≠ [] ∧
      (((w.exec 1).cores 0).ran <+: ((w'.exec 2).cores 0).ran ∨
        ((w'.exec 2).cores 0).ran <+: ((w.exec 1).cores 0).ran) := by
  have ran : ∃ w ∈ exec Site.step Site.Orderly (Site.initial fun _ => smallCfg)
      (takeover ++ [.exec 1 0]), w.cluster.up 1 = true ∧
        ((w.exec 1).cores 0).ran ≠ [] ∧
        ∃ w' ∈ exec Site.step Site.Orderly w (succession ++ settlement),
            w'.cluster.up 2 = true ∧ ((w'.exec 2).cores 0).ran ≠ [] := by
    decide +kernel
  obtain ⟨w, run, up, some_, rest⟩ := Path.exists_of_exec ran
  obtain ⟨w', later, up', some'⟩ := Path.exists_of_exec rest
  exact ⟨w, w', some_, some', replicas_run_alike (fun _ => smallCfg) (fun _ => le_refl 1) run later
    up up' 0⟩

/-! ## Answered updates -/

/-- **An answered update is not lost.**  In an orderly run, at any time after a replica has answered an
update, there is a majority of which every running server holds, at one index, an entry that
issues the update. -/
theorem answered_on_majority (two : 2 ≤ n) (cfg : Fin n → Config)
    (target : ∀ i, 1 ≤ (cfg i).logTarget) {w₁ w₁' w₂ : Site n π} {p : Fin n} {c : Nat}
    {item : Item π}
    (run : Path Site.step Site.Orderly (Site.initial cfg) w₁) (replied : w₁.Answers p c item w₁')
    (update : item.rpc.isUpdate = true) (later : Path Site.step Site.Orderly w₁' w₂) :
    ∃ (e : LogEntry (Fin n) π) (idx : Int), item.rpc ∈ issues e ∧ ∃ Q : Finset (Fin n), Majority Q ∧
      ∀ k ∈ Q, w₂.cluster.up k = true → (w₂.cluster.srv k).Holds e idx := by
  obtain ⟨up, cluster, executed⟩ := replied.ran
  obtain ⟨idx, ran⟩ := executed update
  obtain ⟨g₀, -, sound₀⟩ := sound_run two (sound_initial cfg target) run
  obtain ⟨g₁, -, sound₁⟩ := sound_step two sound₀ (m := .exec p c) trivial replied.2.2
  obtain ⟨g₂, le, sound₂⟩ := sound_run two sound₁ later
  obtain ⟨old, covered, inside⟩ := ran_committed sound₁ (cluster ▸ up) c
  obtain ⟨⟨e, place⟩, member, issued⟩ := List.mem_flatMap.mp (inside.subset ran)
  obtain ⟨k, rfl, at_⟩ := mem_indexed.mp member
  obtain ⟨r, chosen, same⟩ := List.mem_map.mp issued
  cases same
  exact ⟨e, k, (List.mem_filter.mp chosen).1,
    (covered.mono sound₁.sim.matched le (le_refl _)).on_majority sound₂.sim at_⟩

/-- Server 1 answers its update in term 2; by then server 2 leads term 3. -/
theorem answered_on_majority_succession : ∃ (w w' : Site 3 Nat) (e : LogEntry (Fin 3) Nat) (idx : Int),
    (w.cluster.srv 1).currentTerm = 2 ∧ (w'.cluster.srv 2).currentTerm = 3 ∧ updateRpc 2 ∈ issues e ∧
      ∃ Q : Finset (Fin 3), Majority Q ∧
        ∀ k ∈ Q, w'.cluster.up k = true → (w'.cluster.srv k).Holds e idx := by
  have ran : ∃ w ∈ exec Site.step Site.Orderly (Site.initial fun _ => smallCfg) takeover,
      ((w.exec 1).cores 0).ring.head? = some ⟨2, updateRpc 2⟩ ∧
        ((w.exec 1).step 0).any (·.2) = true ∧ (w.cluster.srv 1).currentTerm = 2 ∧
        ∃ w₁ ∈ w.step (.exec 1 0), ∃ w' ∈ exec Site.step Site.Orderly w₁ succession,
          (w'.cluster.srv 2).currentTerm = 3 := by
    decide +kernel
  obtain ⟨w, run, head, replied, term, w₁, taken, rest⟩ := Path.exists_of_exec ran
  obtain ⟨w', later, term'⟩ := Path.exists_of_exec rest
  obtain ⟨e, idx, kept⟩ := answered_on_majority (by decide) (fun _ => smallCfg) (fun _ => le_refl 1)
    run ⟨head, replied, taken⟩ rfl later
  exact ⟨w, w', e, idx, term, term', kept⟩

end Cyclone.Core
