/-
# Cluster.Seats — the fixed membership

Every replica is active from the start and votes: `Seated i s` says that server `i` has
exactly the nodes `0 .. n-1`, all voting, and knows which of them it is.  What the
handlers count over the nodes is then counted over the replicas; in particular
a majority by `raft_votes_is_majority` is a majority of them (`Seated.won`).
-/
import Cyclone.Cluster.Model
import Cyclone.Raft.Effects
import Cyclone.Theory.Majority

namespace Cyclone

open Cyclone.Raft Cyclone.Theory

set_option autoImplicit false

variable {n : Nat} {α : Type}

theorem two_le_of_ne {i j : Fin n} (other : i ≠ j) : 2 ≤ n := by
  have low := i.isLt
  have high := j.isLt
  have differ : i.val ≠ j.val := fun same => other (Fin.ext same)
  omega

/-- Server `i` among `n` voting nodes. -/
structure Seated (i : Fin n) (s : Server (Fin n) α) : Prop where
  node : s.node = some i
  members : s.nodes.map Node.member = (List.finRange n).map fun j => (j, true)

namespace Seated

variable {i : Fin n} {s s' : Server (Fin n) α} (seated : Seated i s)
include seated

theorem of_same (node : s'.node = s.node)
    (members : s'.nodes.map Node.member = s.nodes.map Node.member) : Seated i s' :=
  ⟨node.trans seated.node, members.trans seated.members⟩

theorem ids : s.nodes.map (·.id) = List.finRange n := by
  have ids := congrArg (List.map Prod.fst) seated.members
  simpa [Function.comp_def, Node.member] using ids

theorem nodup : s.NodupNodes := by
  unfold Server.NodupNodes
  rw [seated.ids]
  exact List.nodup_finRange n

theorem length : s.nodes.length = n := by
  have length := congrArg List.length seated.ids
  simpa using length

theorem voting {nd : Node (Fin n)} (member : nd ∈ s.nodes) : nd.voting = true := by
  have image : nd.member ∈ s.nodes.map Node.member := List.mem_map_of_mem member
  rw [seated.members] at image
  obtain ⟨j, -, same⟩ := List.mem_map.mp image
  exact (congrArg Prod.snd same).symm

theorem numVoting : s.numVotingNodes = n := by
  unfold Server.numVotingNodes
  rw [List.countP_eq_length.mpr fun nd member => seated.voting member, seated.length]

theorem selfVoting : s.selfVoting = some true := by
  have present : i ∈ s.nodes.map (·.id) := by
    rw [seated.ids]
    exact List.mem_finRange i
  obtain ⟨nd, member, same⟩ := List.mem_map.mp present
  have found := getNode_of_mem seated.nodup member
  rw [same] at found
  simp [Server.selfVoting, seated.node, found, seated.voting member]

theorem not_nil : s.nodes ≠ [] := by
  intro none_
  have length := seated.length
  rw [none_] at length
  have := i.isLt
  simp only [List.length_nil] at length
  omega

/-- A majority by the server's count: the server itself, and peers that granted it their vote. -/
theorem won (major : Server.votesIsMajority s.nodes.length s.nvotesForMe = true) :
    ∃ Q, Majority Q ∧
      ∀ j ∈ Q, j = i ∨ ∃ nd ∈ s.nodes, nd.id = j ∧ nd.id ≠ i ∧ nd.votedForMe = true := by
  let counts : Node (Fin n) → Bool := fun nd => s.node ≠ some nd.id ∧ nd.voting ∧ nd.votedForMe
  have distinct : (i :: (s.nodes.filter counts).map (·.id)).Nodup := by
    refine List.nodup_cons.mpr ⟨fun mine => ?_, ?_⟩
    · obtain ⟨nd, kept, same⟩ := List.mem_map.mp mine
      have passes := (List.mem_filter.mp kept).2
      simp [counts, seated.node, same] at passes
    · exact ((List.filter_sublist).map _).nodup seated.nodup
  have count : s.nvotesForMe ≤ (s.nodes.filter counts).length + 1 := by
    unfold Server.nvotesForMe
    rw [List.countP_eq_length_filter]
    split
    · exact le_refl _
    · exact Nat.le_succ _
  refine ⟨_, majority_of_nodup distinct ?_, fun j member => ?_⟩
  · unfold Server.votesIsMajority at major
    rw [seated.length] at major
    split at major
    · cases major
    · simp only [decide_eq_true_eq] at major
      rw [Fintype.card_fin]
      simp only [List.length_cons, List.length_map]
      omega
  · rcases List.mem_cons.mp (List.mem_toFinset.mp member) with rfl | later
    · exact Or.inl rfl
    · obtain ⟨nd, kept, rfl⟩ := List.mem_map.mp later
      obtain ⟨inNodes, passes⟩ := List.mem_filter.mp kept
      simp only [counts, decide_eq_true_eq] at passes
      refine Or.inr ⟨nd, inNodes, rfl, fun mine => passes.1 ?_, passes.2.2⟩
      rw [seated.node, mine]

end Seated

/-! ## The start -/

/-- Adding distinct new nodes. -/
theorem addNodes {ι : Type} [DecidableEq ι] (me : ι) {ids : List ι} (distinct : ids.Nodup)
    (s : Server ι α) (new : ∀ id ∈ ids, id ∉ s.nodes.map (·.id)) :
    ids.foldl (fun s id => s.raftAddNode id (id = me)) s =
      { s with
        nodes := s.nodes ++ ids.map nodeNew
        node := if me ∈ ids then some me else s.node } := by
  induction ids generalizing s with
  | nil => simp
  | cons id ids ih =>
    obtain ⟨unseen, rest⟩ := List.nodup_cons.mp distinct
    have absent : s.getNode id = none := by
      rw [Server.getNode, List.find?_eq_none]
      intro nd member same
      exact new id List.mem_cons_self (List.mem_map.mpr ⟨nd, member, by simpa using same⟩)
    have added : s.raftAddNode id (id = me) =
        { s with
          nodes := s.nodes ++ [nodeNew id]
          node := if id = me then some id else s.node } := by
      rw [Server.raftAddNode, absent]
      simp
    rw [List.foldl_cons, added, ih rest]
    · simp only [List.map_cons, List.append_assoc, List.singleton_append, List.mem_cons]
      congr 1
      by_cases here : id = me
      · subst here
        simp [unseen]
      · simp [here, Ne.symm here]
    · intro x later
      simp only [List.map_append, List.map_cons, List.map_nil, List.mem_append, List.mem_singleton]
      rintro (old | same)
      · exact new x (List.mem_cons_of_mem id later) old
      · rw [show x = id from same] at later
        exact unseen later

/-- The server `cyclone_setup` leaves when every replica is active. -/
theorem boot_all (i : Fin n) (cfg : Config) :
    (Server.boot i n cfg (List.finRange n) : Server (Fin n) α) =
      { Server.raftNew i n cfg with
        nodes := (List.finRange n).map nodeNew
        node := some i } := by
  rw [Server.boot, if_pos (List.mem_finRange i), addNodes i (List.nodup_finRange n)]
  · simp only [Server.raftNew, List.nil_append, if_pos (List.mem_finRange i)]
  · simp [Server.raftNew]

theorem boot_seated (i : Fin n) (cfg : Config) :
    Seated i (Server.boot i n cfg (List.finRange n) : Server (Fin n) α) := by
  rw [boot_all]
  refine ⟨rfl, ?_⟩
  simp only [List.map_map]
  rfl

end Cyclone
